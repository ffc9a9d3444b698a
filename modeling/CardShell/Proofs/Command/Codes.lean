import CardShell.Command.Dispatch
import CardShell.Proofs.Action
import CardShell.Proofs.Command.Number
import CardShell.Proofs.Command.Words

/-!
Lists of display codes. A code is a number in one of three notations; the notation with an `h` behind
it has a reader of its own, the other two share that of the command line, which takes numbers modulo
2^24 before they are held against the greatest code.
-/

set_option autoImplicit false

namespace CardShell

namespace Text

theorem before?_concat (c : Char) (t : Text) : before? c (t ++ [c]) = some t := by
  unfold before?
  rw [List.reverse_append]
  simp

theorem before?_of_not_mem {c : Char} {t : Text} (h : c ∉ t) : before? c t = none := by
  unfold before?
  split
  · rename_i d r hr
    have hd : d ∈ t := List.mem_reverse.mp (hr ▸ List.mem_cons_self)
    exact if_neg (ne_of_mem_of_not_mem hd h)
  · rfl

end Text

namespace Display

open Numeral Arguments

/-- How a number is written in a list of codes. -/
inductive Form
  | decimal
  | marked
  | suffixed (capital : Bool)

namespace Form

def radix : Form → Nat
  | decimal => 10
  | marked | suffixed _ => 16

def write (digits : Text) : Form → Text
  | decimal => digits
  | marked => '&' :: digits
  | suffixed capital => digits ++ [if capital then 'H' else 'h']

/-- The readers' bounds. -/
def bound : Form → Nat
  | decimal | marked => 0x8000000000000000
  | suffixed _ => 0x100000000

/-- The number as it is read. -/
def taken (n : Nat) : Form → Nat
  | decimal | marked => n % 0x1000000
  | suffixed _ => n

end Form

/-- An item of a list of codes: a number, perhaps with `;` behind it, which makes it a word, and
perhaps with a comma at its end. -/
structure Item where
  form : Form
  digits : Text
  number : Nat
  spelled : Spells form.radix digits number
  isWord : Bool
  comma : Bool

namespace Item

def code (it : Item) : Text := it.form.write it.digits

def text (it : Item) : Text :=
  it.code ++ (if it.isWord then [';'] else []) ++ (if it.comma then [','] else [])

def taken (it : Item) : Nat := it.form.taken it.number

/-- The number is read, as one that is no greater than a code may be. -/
def Fits (it : Item) : Prop := it.number < it.form.bound ∧ it.taken ≤ 0xFFFF

instance (it : Item) : Decidable it.Fits := inferInstanceAs (Decidable (_ ∧ _))

end Item

/-- A number as one byte, or as two, the low one first, where it is a word or does not fit one. -/
def encode (n : Nat) (isWord : Bool) : List UInt8 :=
  if isWord ∨ 0xFF < n then [UInt8.ofNat n, UInt8.ofNat (n / 256)] else [UInt8.ofNat n]

theorem Form.radix_le (f : Form) : f.radix ≤ 16 := by
  cases f with
  | decimal => decide
  | marked => decide
  | suffixed _ => exact Nat.le_refl 16

/-- No character of a code ends an item or the word it is in. -/
theorem Item.code_plain (it : Item) :
    it.code ≠ [] ∧ ∀ c ∈ it.code, c ≠ ' ' ∧ c ≠ ',' ∧ c ≠ ';' := by
  obtain ⟨form, digits, number, spelled, isWord, comma⟩ := it
  have hall : ∀ c ∈ digits, c ≠ ' ' ∧ c ≠ ',' ∧ c ≠ ';' :=
    spelled.forall (P := fun c => c ≠ ' ' ∧ c ≠ ',' ∧ c ≠ ';') (by decide) form.radix_le
  have hne : digits ≠ [] := spelled.1
  cases form with
  | decimal => exact ⟨hne, hall⟩
  | marked => exact ⟨by simp [code, Form.write], List.forall_mem_cons.mpr ⟨by decide, hall⟩⟩
  | suffixed capital =>
    refine ⟨by simp [code, Form.write], ?_⟩
    intro c hc
    rcases List.mem_append.mp hc with hc | hc
    · exact hall c hc
    · rw [List.mem_singleton.mp hc]
      cases capital <;> decide

theorem code?_suffixed {h : Char} (hh : h = 'h' ∨ h = 'H') {digits : Text} (hne : digits ≠ [])
    (hmark : digits.head? ≠ some '&') :
    code? (digits ++ [h]) = unsigned? 16 0x100000000 digits := by
  have hhead : (digits ++ [h]).head? ≠ some '&' := by
    rwa [List.head?_append_of_ne_nil _ hne]
  unfold code?
  rw [List.reverse_append, List.reverse_singleton, List.singleton_append]
  dsimp only
  rw [if_pos ⟨hh, by simpa using hne, hhead⟩, List.reverse_reverse]

theorem code?_plain {word : Text} (h : word.head? = some '&' ∨ ∀ c ∈ word, c ≠ 'h' ∧ c ≠ 'H') :
    code? word = number? word := by
  unfold code?
  split
  · rename_i c r hr
    have hc : c ∈ word := List.mem_reverse.mp (hr ▸ List.mem_cons_self)
    refine if_neg fun ⟨hsuffix, _, hmark⟩ => ?_
    rcases h with h | h
    · exact hmark h
    · exact hsuffix.elim (h c hc).1 (h c hc).2
  · rfl

theorem head_ne_of_spells {radix n : Nat} {t : Text} (hr : radix ≤ 16) (h : Spells radix t n) :
    t.head? ≠ some '&' := by
  intro hmark
  exact h.forall (P := (· ≠ '&')) (by decide) hr '&' (List.mem_of_mem_head? hmark) rfl

theorem map_wrap_bound (n : Nat) :
    (if n < 0x8000000000000000 then some (n : Int) else none).map wrap =
      if n < 0x8000000000000000 then some (n % 0x1000000) else none := by
  have hwrap : wrap n = n % 0x1000000 := wrap_eq_iff.mpr (by omega)
  split
  · exact congrArg some hwrap
  · rfl

theorem code?_code (it : Item) :
    code? it.code = if it.number < it.form.bound then some it.taken else none := by
  obtain ⟨form, digits, number, spelled, isWord, comma⟩ := it
  have hmark : digits.head? ≠ some '&' := head_ne_of_spells form.radix_le spelled
  cases form with
  | decimal =>
    have hall : ∀ c ∈ digits, c ≠ 'h' ∧ c ≠ 'H' :=
      spelled.forall (P := fun c => c ≠ 'h' ∧ c ≠ 'H') (by decide) (by decide)
    exact (code?_plain (Or.inr hall)).trans ((number?_unmarked hmark).trans
      ((congrArg _ (behindMark?_of_spells (by decide) (by decide) spelled)).trans
        (map_wrap_bound number)))
  | marked =>
    exact (code?_plain (Or.inl rfl)).trans ((number?_marked digits).trans
      ((congrArg _ (behindMark?_of_spells (by decide) (by decide) spelled)).trans
        (map_wrap_bound number)))
  | suffixed capital =>
    have hsuffix : (if capital then 'H' else 'h') = 'h' ∨ (if capital then 'H' else 'h') = 'H' := by
      cases capital <;> decide
    have hplus : unsigned? 16 0x100000000 digits = natural? 16 0x100000000 digits := by
      unfold unsigned?
      split
      · exact absurd (Or.inl rfl) (head_of_spells (Nat.le_refl 16) spelled '+' rfl)
      · rfl
    exact (code?_suffixed hsuffix spelled.1 hmark).trans
      (hplus.trans (natural?_of_spells (by decide) (by decide) (by decide) spelled))

/-- The comma and then the semicolon are taken off. -/
theorem itemBytes?_of_ends {item u word : Text} {isWord : Bool}
    (hcomma : (Text.before? ',' item).getD item = u)
    (hsemicolon : Text.before? ';' u = if isWord then some word else none)
    (hplain : isWord = false → u = word) :
    itemBytes? item = (code? word).bind fun n =>
      if n ≤ 0xFFFF then some (encode n isWord) else none := by
  have hbytes : ∀ n, (if n ≤ 0xFFFF then some (encode n isWord) else none) =
      if 0xFFFF < n then none
      else if isWord ∨ 0xFF < n then some [UInt8.ofNat n, UInt8.ofNat (n / 256)]
      else some [UInt8.ofNat n] := by
    intro n
    unfold encode
    by_cases hn : n ≤ 0xFFFF
    · rw [if_pos hn, if_neg (Nat.not_lt.mpr hn), apply_ite some]
    · rw [if_neg hn, if_pos (Nat.not_le.mp hn)]
  unfold itemBytes?
  rw [hcomma]
  dsimp only
  rw [hsemicolon]
  cases isWord with
  | true =>
    rw [if_pos (rfl : true = true)]
    dsimp only
    cases code? word with
    | none => rfl
    | some n => exact (hbytes n).symm
  | false =>
    obtain rfl := hplain rfl
    rw [if_neg Bool.false_ne_true]
    dsimp only
    cases code? u with
    | none => rfl
    | some n => exact (hbytes n).symm

theorem itemBytes?_text (it : Item) :
    itemBytes? it.text = if it.Fits then some (encode it.taken it.isWord) else none := by
  have hcode := it.code_plain.2
  have hcomma : (Text.before? ',' it.text).getD it.text =
      it.code ++ if it.isWord then [';'] else [] := by
    have hplain : ',' ∉ it.code ++ if it.isWord then [';'] else [] := by
      intro h
      rcases List.mem_append.mp h with h | h
      · exact (hcode ',' h).2.1 rfl
      · cases hw : it.isWord <;> simp [hw] at h
    unfold Item.text
    cases it.comma with
    | true => exact congrArg (Option.getD · _) (Text.before?_concat ',' _)
    | false =>
      rw [if_neg Bool.false_ne_true, List.append_nil, Text.before?_of_not_mem hplain]
      rfl
  have hplain : ∀ {b : Bool}, b = false → (it.code ++ if b then [';'] else []) = it.code := by
    rintro _ rfl
    exact List.append_nil _
  have hsemicolon : Text.before? ';' (it.code ++ if it.isWord then [';'] else []) =
      if it.isWord then some it.code else none := by
    cases it.isWord with
    | true => exact Text.before?_concat ';' _
    | false =>
      rw [hplain rfl]
      exact Text.before?_of_not_mem fun h => (hcode ';' h).2.2 rfl
  rw [itemBytes?_of_ends hcomma hsemicolon hplain, code?_code]
  by_cases hbound : it.number < it.form.bound
  · have hfits : it.Fits ↔ it.taken ≤ 0xFFFF := and_iff_right hbound
    rw [if_pos hbound, Option.bind_some]
    exact if_congr hfits.symm rfl rfl
  · have hfits : ¬ it.Fits := fun h => hbound h.1
    rw [if_neg hbound, if_neg hfits, Option.bind_none]

/-- What is no greater than a code may be is read as it is. -/
theorem Item.fits_of_le {it : Item} (h : it.number ≤ 0xFFFF) :
    it.Fits ∧ it.taken = it.number := by
  obtain ⟨form, digits, number, spelled, isWord, comma⟩ := it
  have hn : number ≤ 0xFFFF := h
  have hbound : number < form.bound := by
    cases form <;> simp only [Form.bound] <;> omega
  have htaken : form.taken number = number := by
    cases form <;> simp only [Form.taken] <;> omega
  exact ⟨⟨hbound, htaken.trans_le h⟩, htaken⟩

theorem mapM_itemBytes? (items : List Item) :
    (items.map Item.text).mapM itemBytes? = if ∀ it ∈ items, it.Fits then
      some (items.map fun it => encode it.taken it.isWord) else none := by
  induction items with
  | nil => simp
  | cons it items ih =>
    rw [List.map_cons, List.mapM_cons, itemBytes?_text, ih]
    simp only [List.forall_mem_cons, List.map_cons]
    by_cases hit : it.Fits
    · rw [if_pos hit]
      by_cases hitems : ∀ it ∈ items, it.Fits
      · rw [if_pos hitems, if_pos ⟨hit, hitems⟩]
        rfl
      · have hall : ¬ (it.Fits ∧ ∀ it ∈ items, it.Fits) := fun h => hitems h.2
        rw [if_neg hitems, if_neg hall]
        rfl
    · have hall : ¬ (it.Fits ∧ ∀ it ∈ items, it.Fits) := fun h => hit h.1
      rw [if_neg hit, if_neg hall]
      rfl

theorem listBytes_text {items : List Item} {t : Text} (ht : Spaced (items.map Item.text) t) :
    listBytes t = if ∀ it ∈ items, it.Fits then
      .ok (items.flatMap fun it => encode it.taken it.isWord) else .error .invalidParameter := by
  have hwords : ∀ w ∈ items.map Item.text, w ≠ [] ∧ ' ' ∉ w := by
    intro w hw
    obtain ⟨it, _, rfl⟩ := List.mem_map.mp hw
    obtain ⟨hne, hcode⟩ := it.code_plain
    constructor
    · simp [Item.text, hne]
    · intro h
      rcases List.mem_append.mp h with h | h
      · rcases List.mem_append.mp h with h | h
        · exact (hcode ' ' h).1 rfl
        · cases hw : it.isWord <;> simp [hw] at h
      · cases hc : it.comma <;> simp [hc] at h
  unfold listBytes
  rw [wordsOf_of_spaced ht hwords (Nat.le_refl _), mapM_itemBytes?]
  by_cases hall : ∀ it ∈ items, it.Fits
  · rw [if_pos hall, if_pos hall, List.flatMap_def]
  · rw [if_neg hall, if_neg hall]

/-- A list of items is read exactly if each number, as it is read, is no greater than a code may be,
and then gives their bytes in order. So it is read as its numbers say, whatever their notation, but
where one that is too great is taken for one that is not. A list that is not read prints nothing. -/
theorem codes_of_items (items : List Item) (t : Text) (ht : Spaced (items.map Item.text) t) :
    listBytes t = (if ∀ it ∈ items, it.Fits then
        .ok (items.flatMap fun it => encode it.taken it.isWord) else .error .invalidParameter) ∧
    (listBytes t = (if ∀ it ∈ items, it.number ≤ 0xFFFF then
        .ok (items.flatMap fun it => encode it.number it.isWord) else .error .invalidParameter) ↔
      ((∀ it ∈ items, it.Fits) → ∀ it ∈ items, it.number ≤ 0xFFFF)) ∧
    ((∀ it ∈ items, it.number < 0x1000000) →
      (∀ it ∈ items, it.Fits) → ∀ it ∈ items, it.number ≤ 0xFFFF) ∧
    ∀ (run : Text → Shell Unit) (m : Machine), Builtin.display.perform run t m =
      match listBytes t with
      | .ok bytes => .ok () { m with console := m.console.put bytes }
      | .error e => .error (.failed e) m := by
  have hbytes := listBytes_text ht
  refine ⟨hbytes, ?_, ?_, ?_⟩
  · rw [hbytes]
    by_cases hsmall : ∀ it ∈ items, it.number ≤ 0xFFFF
    · have hfits : ∀ it ∈ items, it.Fits := fun it hit => (Item.fits_of_le (hsmall it hit)).1
      have hsame : (items.flatMap fun it => encode it.taken it.isWord) =
          items.flatMap fun it => encode it.number it.isWord := by
        rw [List.flatMap_def, List.flatMap_def]
        refine congrArg List.flatten (List.map_congr_left fun it hit => ?_)
        rw [(Item.fits_of_le (hsmall it hit)).2]
      rw [if_pos hfits, if_pos hsmall, hsame]
      exact iff_of_true rfl fun _ => hsmall
    · rw [if_neg hsmall]
      by_cases hfits : ∀ it ∈ items, it.Fits
      · rw [if_pos hfits]
        exact iff_of_false nofun fun h => hsmall (h hfits)
      · rw [if_neg hfits]
        exact iff_of_true rfl fun h => absurd h hfits
  · intro hlow hfits it hit
    have hsame : it.taken = it.number := by
      have hn := hlow it hit
      unfold Item.taken
      cases it.form with
      | suffixed _ => rfl
      | _ => exact Nat.mod_eq_of_lt hn
    exact hsame ▸ (hfits it hit).2
  · intro run m
    have hperform : Builtin.display.perform run t =
        Shell.ofExcept (listBytes t) >>= fun bytes => Shell.printBytes bytes := rfl
    rw [hperform, Action.bind_apply]
    cases listBytes t <;> rfl

theorem codes_of_three_items : ∃ items : List Item, items.map Item.number = [19, 4, 255] ∧
    Spaced (items.map Item.text) " 19, 4;  0FFh" ∧
    listBytes " 19, 4;  0FFh" = .ok [19, 4, 0, 255] := by
  have hspells : ∀ {radix n : Nat} {t : Text}, 0 < radix → radix ≤ 16 →
      natural? radix 0x10000 t = some n → Spells radix t n :=
    fun hpos hr h => ((natural?_eq_some_iff hpos hr (by decide)).mp h).1
  have h19 : Spells 10 ['1', '9'] 19 := hspells (by decide) (by decide) rfl
  have h4 : Spells 10 ['4'] 4 := hspells (by decide) (by decide) rfl
  have h255 : Spells 16 ['0', 'F', 'F'] 255 := hspells (by decide) (by decide) rfl
  have hspaced : Spaced [['1', '9', ','], ['4', ';'], ['0', 'F', 'F', 'h']]
      (" 19, 4;  0FFh" : Text) := .cons 1 ['1', '9', ','] (.cons 0 ['4', ';'] (.last 1 _))
  let items : List Item := [⟨.decimal, _, 19, h19, false, true⟩, ⟨.decimal, _, 4, h4, true, false⟩,
    ⟨.suffixed false, _, 255, h255, false, false⟩]
  have hfits : ∀ it ∈ items, it.Fits := by
    simp [items, Item.Fits, Item.taken, Form.bound, Form.taken]
  have hbytes : (items.flatMap fun it => encode it.taken it.isWord) = [19, 4, 0, 255] := by
    simp [items, encode, Item.taken, Form.taken]
  exact ⟨items, rfl, hspaced, ((codes_of_items items _ hspaced).1.trans (if_pos hfits)).trans
    (congrArg Except.ok hbytes)⟩

/-- A number of more than 24 bits is taken for a code, unless it has an `h` behind it. -/
theorem great_number_wrapped :
    Spells 10 "16777216" 16777216 ∧ listBytes "16777216" = .ok [0] ∧
      listBytes "1000000h" = .error .invalidParameter := by
  have hnatural : natural? 10 0x10000000 "16777216" = some 16777216 := rfl
  exact ⟨((natural?_eq_some_iff (by decide) (by decide) (by decide)).mp hnatural).1, rfl, rfl⟩

end Display

end CardShell
