import CardShell.Proofs.Command.Escapes
import CardShell.Proofs.PathText
import CardShell.Proofs.Text.Slice
import CardShell.Proofs.Variable.Substitution

/-!
Readers that look for a byte offset in a text and cut it there: words, typed paths, insertions,
escapes. None of the cuts falls inside a character, whatever the text, and what is read is what is
read character by character.
-/

set_option autoImplicit false

namespace CardShell

theorem Text.utf8Size_separator : '/'.utf8Size = 1 := by decide

namespace Arguments

/-- A word up to the next blank, and what follows that blank. -/
def nextWordAt (t : Text) : Option (Option Text × Text) :=
  let t := t.dropWhile (· = ' ')
  if t = [] then some (none, [])
  else match Text.find? (· = ' ') t with
    | none => some (some t, [])
    | some i => do return (some (← Text.upTo? i t), ← Text.from? (i + 1) t)

theorem nextWordAt_eq (t : Text) : nextWordAt t = some (nextWord t) := by
  unfold nextWordAt nextWord
  dsimp only
  generalize t.dropWhile (· = ' ') = u
  cases u with
  | nil => rfl
  | cons c u =>
    rw [if_neg (List.cons_ne_nil c u)]
    dsimp only
    rw [List.span_eq_takeWhile_dropWhile]
    rcases Text.find_cases (· = ' ') (c :: u) with hnone | ⟨s, d, r, hsplit, hs, hd⟩
    · have hall : ∀ e ∈ c :: u, decide (e ≠ ' ') = true := by simpa using hnone
      rw [Text.find?_eq_none hnone, List.takeWhile_eq_self_iff.mpr hall,
        List.dropWhile_eq_nil_iff.mpr hall]
      rfl
    · obtain rfl : d = ' ' := of_decide_eq_true hd
      have hall : ∀ e ∈ s, decide (e ≠ ' ') = true := by simpa using hs
      rw [hsplit, Text.find?_append hs hd, List.takeWhile_append_of_pos hall,
        List.dropWhile_append_of_pos hall]
      simp [Text.upTo?_append, Text.from?_succ (c := ' ') (by decide)]

end Arguments

namespace PathText

/-- The directory of a typed path and its last part, cut at the offset of the last separator. -/
def partsAt (path : Text) : Option (Text × Text) :=
  match Text.rfind? (· = '/') path with
  | none => some ([], path)
  | some i => do
    let dir ← if i = 0 then some ['/'] else Text.upTo? i path
    return (dir, ← Text.from? (i + 1) path)

def splitAt (path : Text) : Option Target := do
  let (dir, last) ← partsAt path
  if Glob.hasWildcard last then some (.matching dir last) else some (.single path)

theorem splitAt_eq (path : Text) : splitAt path = some (split path) := by
  unfold splitAt partsAt split
  rcases cutLast_cases path with ⟨hnone, hcut⟩ | ⟨dir, last, rfl, hlast, hcut⟩
  · have hall : ∀ c ∈ path, decide (c = '/') = false :=
      fun c hc => decide_eq_false fun he => hnone (he ▸ hc)
    rw [hcut, Text.rfind?_eq_none hall]
    exact (apply_ite some _ _ _).symm
  · have hall : ∀ c ∈ last, decide (c = '/') = false :=
      fun c hc => decide_eq_false fun he => hlast (he ▸ hc)
    have hbehind := Text.from?_succ Text.utf8Size_separator dir last
    rw [hcut, Text.rfind?_append hall (decide_eq_true rfl)]
    dsimp only
    rw [hbehind]
    cases dir with
    | nil => exact (apply_ite some _ _ _).symm
    | cons c dir =>
      have hpos := c.utf8Size_pos
      have hne : Text.size (c :: dir) ≠ 0 := by
        rw [Text.size_cons]
        omega
      rw [if_neg hne, Text.upTo?_append]
      exact (apply_ite some _ _ _).symm

end PathText

namespace Expand

/-- The pieces of a text, insertions cut out at the offset of their `>`. -/
def piecesAt : (fuel : Nat) → Text → Option (List Piece)
  | 0, _ | _, [] => some []
  | fuel + 1, c :: t =>
    if c = '|' then match t with
      | [] => some [.broken]
      | d :: t => (piecesAt fuel t).map (.literal (controlChar d) :: ·)
    else if c = '<' then match Text.find? (· = '>') t with
      | none => some [.broken]
      | some i => do
        let inner ← Text.upTo? i t
        return .insertion inner :: (← piecesAt fuel (← Text.from? (i + 1) t))
    else (piecesAt fuel t).map (.literal c :: ·)

theorem piecesAt_eq {fuel : Nat} {t : Text} (h : t.length ≤ fuel) :
    piecesAt fuel t = some (pieces t) := by
  induction fuel generalizing t with
  | zero =>
    rw [List.eq_nil_of_length_eq_zero (Nat.le_zero.mp h)]
    rfl
  | succ fuel ih =>
    cases t with
    | nil => rfl
    | cons c t =>
      rw [List.length_cons] at h
      rw [piecesAt.eq_def]
      dsimp only
      by_cases hbar : c = '|'
      · subst hbar
        cases t with
        | nil => rfl
        | cons d t =>
          rw [List.length_cons] at h
          rw [if_pos rfl, pieces_control]
          dsimp only
          rw [ih (by omega)]
          rfl
      · rw [if_neg hbar]
        by_cases hopen : c = '<'
        · subst hopen
          rw [if_pos rfl]
          rcases Text.find_cases (· = '>') t with hnone | ⟨inner, d, r, rfl, hinner, hd⟩
          · rw [Text.find?_eq_none hnone, pieces_unclosed]
            exact fun hmem => of_decide_eq_false (hnone '>' hmem) rfl
          · obtain rfl : d = '>' := of_decide_eq_true hd
            have hclosed : '>' ∉ inner := fun hmem => of_decide_eq_false (hinner '>' hmem) rfl
            rw [List.length_append, List.length_cons] at h
            rw [Text.find?_append hinner hd, pieces_insertion hclosed]
            dsimp only
            rw [Text.upTo?_append, Text.from?_succ (by decide)]
            simp only [Option.bind_eq_bind, Option.bind_some]
            rw [ih (by omega)]
            rfl
        · rw [if_neg hopen, pieces_plain hbar hopen, ih (by omega)]
          rfl

end Expand

namespace Display

open Numeral

/-- Expands escapes from byte `i` on, with the digits behind `\x` cut out by their offsets. -/
def unescapeAt (t : Text) : (fuel i : Nat) → Option (List UInt8)
  | 0, _ => some []
  | fuel + 1, i => match t.bytes[i]? with
    | none => some []
    | some b =>
      if b ≠ 92 then (unescapeAt t fuel (i + 1)).map (b :: ·)
      else match t.bytes[i + 1]? with
        | none => some []
        | some code =>
          if code ≠ 120 then (unescapeAt t fuel (i + 2)).map (letterEscape code ++ ·)
          else
            let digits := ((t.bytes.drop (i + 2)).take 2).takeWhile fun b => (hexDigit? b).isSome
            if digits = [] then unescapeAt t fuel (i + 2)
            else do
              let hex ← Text.between? (i + 2) (i + 2 + digits.length) t
              let rest ← unescapeAt t fuel (i + 2 + digits.length)
              return ((unsigned? 16 256 hex).map UInt8.ofNat).toList ++ rest

variable {t : Text} {i d hi lo : Nat} {b b' : UInt8} {bs : List UInt8}

theorem lt_of_hexDigit? (hb : hexDigit? b = some d) : b.toNat < 0x80 := by
  rw [← Nat.not_le]
  intro hle
  rw [hexDigit?_of_le hle] at hb
  cases hb

theorem lt_of_digit? {c : Char} (hc : digit? 16 c = some d) : d < 16 :=
  ((isDigit_iff (Nat.le_refl 16)).mp ((digit?_eq_some_iff (Nat.le_refl 16)).mp hc)).1

/-- A byte that is a hexadecimal digit is a character, and that digit. -/
theorem exists_digit (hb : hexDigit? b = some d) {u : Text} (hu : u.bytes = b :: bs) :
    ∃ c v, u = c :: v ∧ Text.bytes v = bs ∧ digit? 16 c = some d ∧ c.utf8Size = 1 := by
  have hlow := lt_of_hexDigit? hb
  obtain ⟨c, v, rfl, hc, hv⟩ := Text.eq_cons_of_bytes hu hlow
  refine ⟨c, v, rfl, hv, ?_, Text.utf8Size_of_lt (hc ▸ hlow)⟩
  rw [← hb, hexDigit?, ← hc, Char.ofNat_toNat]

theorem unsigned?_of_digit {c : Char} {ds : Text} (hc : digit? 16 c = some d) :
    unsigned? 16 256 (c :: ds) = digits? 16 256 d ds := by
  have hlt : d < 256 := Nat.lt_trans (lt_of_digit? hc) (by decide)
  have hplus : c ≠ '+' := by
    rintro rfl
    cases hc
  have hnatural : natural? 16 256 (c :: ds) = digits? 16 256 d ds := by
    simp [natural?, digits?, hc, hlt]
  rw [← hnatural]
  unfold unsigned?
  split
  · rename_i he
    exact absurd (List.cons.inj he).1 hplus
  · rfl

theorem exists_hex_one (h : t.bytes.drop i = b :: bs) (hb : hexDigit? b = some d) :
    ∃ hex, Text.between? i (i + 1) t = some hex ∧ unsigned? 16 256 hex = some d := by
  obtain ⟨s, u, rfl, rfl, hu⟩ := Text.exists_of_drop_bytes h (lt_of_hexDigit? hb)
  obtain ⟨c, v, rfl, _, hc, hsize⟩ := exists_digit hb hu
  refine ⟨[c], ?_, unsigned?_of_digit hc⟩
  have hcut := Text.between?_append s [c] v
  rw [Text.size_cons, hsize] at hcut
  exact hcut

theorem exists_hex_two (h : t.bytes.drop i = b :: b' :: bs) (hb : hexDigit? b = some hi)
    (hb' : hexDigit? b' = some lo) :
    ∃ hex, Text.between? i (i + 2) t = some hex ∧ unsigned? 16 256 hex = some (hi * 16 + lo) := by
  obtain ⟨s, u, rfl, rfl, hu⟩ := Text.exists_of_drop_bytes h (lt_of_hexDigit? hb)
  obtain ⟨c, v, rfl, hv, hc, hsize⟩ := exists_digit hb hu
  obtain ⟨e, w, rfl, _, he, hsize'⟩ := exists_digit hb' hv
  refine ⟨[c, e], ?_, ?_⟩
  · have hcut := Text.between?_append s [c, e] w
    rw [Text.size_cons, Text.size_cons, hsize, hsize'] at hcut
    exact hcut
  · have hhi := lt_of_digit? hc
    have hlo := lt_of_digit? he
    have hlt : hi * 16 + lo < 256 := by omega
    simp [unsigned?_of_digit hc, digits?, he, hlt]

theorem drop_of_getElem? {α : Type} {l : List α} {a : α} (h : l[i]? = some a) :
    l.drop i = a :: l.drop (i + 1) := by
  obtain ⟨hi, rfl⟩ := List.getElem?_eq_some_iff.mp h
  exact List.drop_eq_getElem_cons hi

theorem unescapeBytes_noDigit (h : ∀ b ∈ bs.head?, hexDigit? b = none) :
    unescapeBytes (92 :: 120 :: bs) = unescapeBytes bs := by
  rw [unescapeBytes.eq_def]
  cases bs with
  | nil => rfl
  | cons b bs =>
    simp only [ne_eq, not_true_eq_false, if_false, h b rfl]

/-- Behind `\x` come no digits, or some that are cut out as they are counted. -/
theorem digits_cases (t : Text) (i : Nat) :
    let digits := ((t.bytes.drop i).take 2).takeWhile fun b => (hexDigit? b).isSome
    (digits = [] ∧ unescapeBytes (92 :: 120 :: t.bytes.drop i) = unescapeBytes (t.bytes.drop i)) ∨
    digits ≠ [] ∧ ∃ hex n, Text.between? i (i + digits.length) t = some hex ∧
      unsigned? 16 256 hex = some n ∧ unescapeBytes (92 :: 120 :: t.bytes.drop i) =
        UInt8.ofNat n :: unescapeBytes (t.bytes.drop (i + digits.length)) := by
  have hrest : ∀ k, t.bytes.drop (i + k) = (t.bytes.drop i).drop k := fun k => List.drop_drop.symm
  dsimp only
  simp only [hrest]
  rcases hbs : t.bytes.drop i with _ | ⟨b, bs⟩
  · exact Or.inl ⟨rfl, unescapeBytes_noDigit nofun⟩
  cases hb : hexDigit? b with
  | none => exact Or.inl ⟨by simp [hb], unescapeBytes_noDigit fun c hc => Option.some.inj hc ▸ hb⟩
  | some hi =>
    have hone : (∀ e ∈ bs.head?, hexDigit? e = none) →
        ((b :: bs).take 2).takeWhile (fun b => (hexDigit? b).isSome) = [b] := by
      intro hnext
      cases bs with
      | nil => simp [hb]
      | cons e bs => simp [hb, hnext e rfl]
    by_cases hnext : ∀ e ∈ bs.head?, hexDigit? e = none
    · obtain ⟨hex, hcut, hvalue⟩ := exists_hex_one hbs hb
      rw [hone hnext]
      exact Or.inr ⟨List.cons_ne_nil _ _, hex, hi, hcut, hvalue, unescapeBytes_oneDigit hb hnext⟩
    · rcases bs with _ | ⟨b', bs⟩
      · exact absurd nofun hnext
      cases hb' : hexDigit? b' with
      | none => exact absurd (fun e he => Option.some.inj he ▸ hb') hnext
      | some lo =>
        obtain ⟨hex, hcut, hvalue⟩ := exists_hex_two hbs hb hb'
        have htwo : ((b :: b' :: bs).take 2).takeWhile (fun b => (hexDigit? b).isSome) = [b, b'] := by
          simp [hb, hb']
        rw [htwo]
        exact Or.inr ⟨List.cons_ne_nil _ _, hex, _, hcut, hvalue, unescapeBytes_twoDigits hb hb' bs⟩

theorem unescapeAt_eq {fuel : Nat} (h : t.bytes.length < fuel + i) :
    unescapeAt t fuel i = some (unescapeBytes (t.bytes.drop i)) := by
  induction fuel generalizing i with
  | zero =>
    rw [List.drop_of_length_le (by omega)]
    rfl
  | succ fuel ih =>
    rw [unescapeAt]
    cases hb : t.bytes[i]? with
    | none =>
      rw [List.drop_of_length_le (List.getElem?_eq_none_iff.mp hb)]
      rfl
    | some b =>
      rw [drop_of_getElem? hb]
      dsimp only
      by_cases hplain : b = 92
      · subst hplain
        rw [if_neg (not_not_intro rfl)]
        cases hcode : t.bytes[i + 1]? with
        | none =>
          rw [List.drop_of_length_le (List.getElem?_eq_none_iff.mp hcode)]
          rfl
        | some code =>
          rw [drop_of_getElem? hcode]
          dsimp only
          by_cases hx : code = 120
          · subst hx
            rw [if_neg (not_not_intro rfl)]
            rcases digits_cases t (i + 2) with ⟨hnone, hbytes⟩ | ⟨hsome, hex, n, hcut, hvalue, hbytes⟩
            · rw [if_pos hnone, hbytes]
              exact ih (by omega)
            · rw [if_neg hsome, hbytes, hcut, ih (by omega)]
              simp [hvalue]
          · rw [if_pos hx, unescapeBytes_letter hx, ih (by omega)]
            rfl
      · rw [if_pos hplain, unescapeBytes_plain hplain, ih (by omega)]
        rfl

end Display

end CardShell
