import CardShell.Proofs.Text.Utf8
import CardShell.Proofs.Variable.Cut
import CardShell.Proofs.Variable.Formula

/-!
A formula that is written down is evaluated to the number it comes to. The reader goes through the
tokens of a part of it, whatever stands behind, and is left with its value in the stage that the
level of the part asks for; so it goes through the parts one after the other.
-/

set_option autoImplicit false

namespace CardShell.Expression

variable {word : Text → Except Error Int} {vs : Variables} {r : Readings} {ts ts' : List Text}
  {w t u m : Text} {x y : Except Error Int} {a b n : Int} {e : Formula} {op : Operator} {c : Char}

section Tokens

/-- All characters have one byte, so no token ends inside one. -/
def Ascii (t : Text) : Prop := ∀ c ∈ t, c.utf8Size = 1

theorem Ascii.suffix (ht : Ascii t) (h : u <:+ t) : Ascii u := fun c hc => ht c (h.subset hc)

theorem Ascii.behind (ht : Ascii t) (h : t.trimStart = w ++ m) : Ascii m :=
  ht.suffix ((h ▸ List.suffix_append w m).trans (suffix_trimStart t))

/-- The text starts with the tokens. There may be spaces in front of each, and there is one behind
it unless the text ends; `u` is what is left. -/
inductive Laid : List Text → Text → Text → Prop
  | nil (u : Text) : Laid [] u u
  | cons (gap : Nat) (w : Text) {ts : List Text} {t u : Text} (hend : ∀ c ∈ t.head?, c = ' ')
    (h : Laid ts t u) : Laid (w :: ts) (List.replicate gap ' ' ++ (w ++ t)) u

structure IsToken (w : Text) : Prop where
  ne_nil : w ≠ []
  ascii : Ascii w
  no_blank : ∀ c ∈ w, Text.isBlank c = false
  no_quote : w.head? ≠ some '"'

theorem IsToken.of_all (hne : w ≠ [])
    (h : w.all (fun c => c.utf8Size == 1 && !Text.isBlank c && c != '"') = true) : IsToken w := by
  have hall : ∀ c ∈ w, (c.utf8Size = 1 ∧ Text.isBlank c = false) ∧ c ≠ '"' := by
    simpa only [List.all_eq_true, Bool.and_eq_true, beq_iff_eq, Bool.not_eq_true', bne_iff_ne]
      using h
  refine ⟨hne, fun c hc => (hall c hc).1.1, fun c hc => (hall c hc).1.2, fun hquote => ?_⟩
  exact (hall '"' (List.mem_of_mem_head? hquote)).2 rfl

theorem Laid.split (h : Laid (ts ++ ts') t u) : ∃ m, Laid ts t m ∧ Laid ts' m u := by
  induction ts generalizing t with
  | nil => exact ⟨t, .nil t, h⟩
  | cons w ts ih =>
    cases h with
    | cons gap _ hend h =>
      obtain ⟨m, hm, hu⟩ := ih h
      exact ⟨m, .cons gap w hend hm, hu⟩

theorem Laid.suffix (h : Laid ts t u) : u <:+ t := by
  induction h with
  | nil => exact List.suffix_rfl
  | cons gap w _ _ ih => exact (ih.trans (List.suffix_append w _)).trans (List.suffix_append _ _)

theorem Laid.ascii (h : Laid ts t u) (hts : ∀ w ∈ ts, IsToken w) (hu : Ascii u) :
    Ascii t := by
  induction h with
  | nil => exact hu
  | cons gap w _ _ ih =>
    obtain ⟨hw, hts⟩ := List.forall_mem_cons.mp hts
    intro c hc
    rcases List.mem_append.mp hc with hc | hc
    · rw [List.eq_of_mem_replicate hc]
      rfl
    · rcases List.mem_append.mp hc with hc | hc
      · exact hw.ascii c hc
      · exact ih hts hu c hc

theorem isBlank_gap (gap : Nat) : ∀ c ∈ List.replicate gap ' ', Text.isBlank c = true := by
  intro c hc
  rw [List.eq_of_mem_replicate hc]
  rfl

theorem trimStart_gap (hw : IsToken w) (gap : Nat) (t : Text) :
    Text.trimStart (List.replicate gap ' ' ++ (w ++ t)) = w ++ t := by
  obtain ⟨c, w, rfl⟩ := List.exists_cons_of_ne_nil hw.ne_nil
  rw [Text.trimStart, List.dropWhile_append_of_pos (isBlank_gap gap)]
  exact List.dropWhile_cons_of_neg (ne_true_of_eq_false (hw.no_blank c List.mem_cons_self))

theorem Laid.trimStart (h : Laid (w :: ts) t u) (hw : IsToken w) :
    ∃ m, t.trimStart = w ++ m ∧ (∀ c ∈ m.head?, c = ' ') ∧ Laid ts m u := by
  cases h with
  | cons gap _ hend h => exact ⟨_, trimStart_gap hw gap _, hend, h⟩

theorem Laid.last (h : Laid ts t []) (hts : ∀ w ∈ ts, IsToken w) :
    ∀ c ∈ t.getLast?, Text.isBlank c = false := by
  generalize hu : ([] : Text) = u at h
  induction h with
  | nil => simp [← hu]
  | @cons gap w ts t u _ h ih =>
    obtain ⟨hw, hts⟩ := List.forall_mem_cons.mp hts
    intro c hc
    by_cases ht : t = []
    · subst ht
      rw [List.append_nil, List.getLast?_append_of_ne_nil _ hw.ne_nil] at hc
      exact hw.no_blank c (List.mem_of_mem_getLast? hc)
    · have hne : w ++ t ≠ [] := List.append_ne_nil_of_right_ne_nil w ht
      rw [List.getLast?_append_of_ne_nil _ hne, List.getLast?_append_of_ne_nil _ ht] at hc
      exact ih hts hu c hc

theorem Laid.space (h : Laid (w :: ts) t u) : Laid (w :: ts) (' ' :: t) u := by
  cases h with
  | cons gap _ hend h => exact .cons (gap + 1) w hend h

theorem laid_joinWith (ts : List Text) : Laid ts (Text.joinWith [' '] ts) [] := by
  induction ts with
  | nil => exact .nil []
  | cons w ts ih =>
    cases ts with
    | nil =>
      have h : Laid [w] (w ++ []) [] := .cons 0 w nofun (.nil [])
      rwa [List.append_nil] at h
    | cons v ts =>
      rw [Text.joinWith, List.append_assoc]
      exact .cons 0 w (by simp) ih.space

end Tokens

section AtToken

theorem splitBytes?_append (w t : Text) : splitBytes? w.size (w ++ t) = .ok (some (w, t)) := by
  induction w with
  | nil => cases t <;> rfl
  | cons c w ih =>
    have hpos := c.utf8Size_pos
    obtain ⟨k, hk⟩ : ∃ k, Text.size (c :: w) = k + 1 := ⟨c.utf8Size + Text.size w - 1, by
      rw [Text.size_cons]
      omega⟩
    have hle : c.utf8Size ≤ k + 1 := by
      rw [← hk, Text.size_cons]
      omega
    have hrest : k + 1 - c.utf8Size = Text.size w := by
      rw [← hk, Text.size_cons]
      omega
    rw [hk, List.cons_append, splitBytes?, if_pos hle, hrest, ih]
    rfl

theorem eat_here (h : t.trimStart = w ++ u) : eat w t = .ok (some u) := by
  unfold eat
  rw [h, splitBytes?_append]
  simp [Text.sameFold, bind, Except.bind]

theorem eat_elsewhere (ht : Ascii t)
    (h : ∀ d ∈ t.trimStart.head?, d.toLower ≠ c.toLower) : eat (c :: w) t = .ok none := by
  have hascii := not_endsInside_of_ascii (ht.suffix (suffix_trimStart t))
  unfold eat
  rcases splitBytes?_whole (hascii (Text.size (c :: w)))
    with hx | ⟨s, v, htrim, hs, hx⟩
  · rw [hx]
    rfl
  · have hsame : Text.sameFold s (c :: w) = false := by
      cases s with
      | nil =>
        have hpos := c.utf8Size_pos
        rw [Text.size_nil, Text.size_cons] at hs
        omega
      | cons d s =>
        have hd := h d (by rw [htrim]; rfl)
        simp [Text.sameFold, Text.fold, hd]
    rw [hx]
    simp only [bind, Except.bind, Option.bind_some, hsame]
    rfl

theorem eat_other {d : Char} (ht : Ascii t) (h : t.trimStart = d :: m)
    (hd : d.toLower ≠ c.toLower) : eat (c :: w) t = .ok none := by
  refine eat_elsewhere ht fun e he => ?_
  rw [h] at he
  cases he
  exact hd

end AtToken

section BehindPart

def Operator.rest : Operator → Int → Stage
  | add, a | sub, a => .sumRest a
  | mul, a | div, a | mod, a => .productRest a

def Operator.operand : Operator → Stage
  | add | sub => .product
  | mul | div | mod => .signed

theorem divide_eq (f : Int → Int → Int) (a b : Int) :
    divide f a b = Halt.ofExcept ((if b = 0 ∨ a = -0x80000000 ∧ b = -1 then none
      else some (f a b)).elim (.error .invalidParameter) .ok) := by
  unfold divide
  split <;> rfl

theorem whole_operator (op : Operator) (a : Int) (ht : Ascii t)
    (h : t.trimStart = op.text ++ m) :
    whole word (op.rest a) t = (do
      let (b, u) ← whole word op.operand m
      whole word (op.rest (← Halt.ofExcept (op.outcome a b))) u) := by
  cases op with
  | add =>
    rw [whole_eq, Operator.rest, Stage.plan, run_lookFor_cons, eat_here (w := ['+']) h]
    rfl
  | sub =>
    rw [whole_eq, Operator.rest, Stage.plan, run_lookFor_cons, run_lookFor_cons,
      eat_other ht h (by decide), eat_here (w := ['-']) h]
    rfl
  | mul =>
    rw [whole_eq, Operator.rest, Stage.plan, run_lookFor_cons, eat_here (w := ['*']) h]
    rfl
  | div =>
    rw [whole_eq, Operator.rest, Stage.plan, run_lookFor_cons, run_lookFor_cons,
      eat_other ht h (by decide), eat_here (w := ['/']) h]
    simp only [divide_eq, run_first_bind]
    rfl
  | mod =>
    rw [whole_eq, Operator.rest, Stage.plan, run_lookFor_cons, run_lookFor_cons, run_lookFor_cons,
      eat_other ht h (by decide), eat_other ht h (by decide), eat_here (w := ['M', 'O', 'D']) h]
    simp only [divide_eq, run_first_bind]
    rfl

/-- No factor of the product follows. -/
def EndsProduct (t : Text) : Prop := ∀ c ∈ t.trimStart.head?, c = '+' ∨ c = '-' ∨ c = ')'

/-- Nor does a summand. -/
def EndsSum (t : Text) : Prop := ∀ c ∈ t.trimStart.head?, c = ')'

theorem whole_productRest_end (ht : Ascii t) (h : EndsProduct t) (a : Int) :
    whole word (.productRest a) t = .ok (a, t) := by
  have hno : ∀ c w, '+'.toLower ≠ c.toLower ∧ '-'.toLower ≠ c.toLower ∧ ')'.toLower ≠ c.toLower →
      eat (c :: w) t = .ok none := by
    rintro c w ⟨hplus, hminus, hclose⟩
    refine eat_elsewhere ht fun d hd => ?_
    rcases h d hd with rfl | rfl | rfl
    · exact hplus
    · exact hminus
    · exact hclose
  rw [whole_eq, Stage.plan, run_lookFor_cons, run_lookFor_cons, run_lookFor_cons,
    hno '*' [] (by decide), hno '/' [] (by decide), hno 'M' ['O', 'D'] (by decide)]
  rfl

theorem whole_sumRest_end (ht : Ascii t) (h : EndsSum t) (a : Int) :
    whole word (.sumRest a) t = .ok (a, t) := by
  have hno : ∀ c w, ')'.toLower ≠ c.toLower → eat (c :: w) t = .ok none := fun c w hc =>
    eat_elsewhere ht fun d hd => h d hd ▸ hc
  rw [whole_eq, Stage.plan, run_lookFor_cons, run_lookFor_cons, hno '+' [] (by decide),
    hno '-' [] (by decide)]
  rfl

end BehindPart

section BeforePart

theorem whole_minus (h : t.trimStart = ['-'] ++ m) : whole word .signed t = (do
    let (a, u) ← whole word .signed m
    .ok (wrap (-a), u)) := by
  rw [whole_eq, Stage.plan, run_lookFor_cons, eat_here h]
  rfl

theorem whole_plus (ht : Ascii t) (h : t.trimStart = ['+'] ++ m) :
    whole word .signed t = whole word .signed m := by
  rw [whole_eq, Stage.plan, run_lookFor_cons, run_lookFor_cons, eat_other ht h (by decide),
    eat_here h]
  exact run_first_done (whole word) .signed m

/-- Where neither sign stands, a signed part is a primary one. -/
theorem whole_signed (hminus : eat ['-'] t = .ok none) (hplus : eat ['+'] t = .ok none) :
    whole word .signed t = whole word .primary t := by
  rw [whole_eq, Stage.plan, run_lookFor_cons, run_lookFor_cons, hminus, hplus]
  exact run_first_done (whole word) .primary t

theorem whole_open (ht : Ascii t) (h : t.trimStart = ['('] ++ m) :
    whole word .signed t = (do
      let (a, u) ← whole word .sum m
      whole word (.bracket a) u) := by
  rw [whole_signed (eat_other ht h (by decide)) (eat_other ht h (by decide)), whole_eq, Stage.plan,
    run_lookFor_cons, eat_here h]
  rfl

theorem whole_close (h : t.trimStart = [')'] ++ m) (a : Int) :
    whole word (.bracket a) t = .ok (a, m) := by
  rw [whole_eq, Stage.plan, run_lookFor_cons, eat_here h]
  rfl

theorem whole_word (ht : Ascii t) (hne : w ≠ [])
    (hw : ∀ c ∈ w, endsWord c = false) (h : t.trimStart = w ++ m)
    (hm : ∀ c ∈ m.head?, endsWord c = true) :
    whole word .signed t = (do .ok (← Halt.ofExcept (word w), m)) := by
  have hno : ∀ {c}, c.toNat < 65 → endsWord c = true → eat [c] t = .ok none := by
    intro c hc hend
    obtain ⟨d, v, hv⟩ := List.exists_cons_of_ne_nil hne
    refine eat_other ht (h.trans (by rw [hv]; rfl)) fun hsame => ?_
    have hd := hw d (hv ▸ List.mem_cons_self)
    rw [(toLower_eq_iff hc d).mp hsame, hend] at hd
    cases hd
  have hin : ∀ c ∈ w, (!endsWord c) = true := fun c hc => by rw [hw c hc]; rfl
  have hout : m.takeWhile (fun c => !endsWord c) = [] ∧ m.dropWhile (fun c => !endsWord c) = m := by
    cases m with
    | nil => exact ⟨rfl, rfl⟩
    | cons c m =>
      have hc : ¬ (!endsWord c) = true := by rw [hm c rfl]; decide
      exact ⟨List.takeWhile_cons_of_neg hc, List.dropWhile_cons_of_neg hc⟩
  rw [whole_signed (hno (by decide) (by decide)) (hno (by decide) (by decide)), whole_eq,
    Stage.plan, run_lookFor_cons, hno (by decide) (by decide)]
  show operand word t = _
  unfold operand
  rw [h, List.span_eq_takeWhile_dropWhile, List.takeWhile_append_of_pos hin,
    List.dropWhile_append_of_pos hin, hout.1, hout.2, List.append_nil]
  exact if_neg hne

end BeforePart

section Levels

/-- The reader goes through the tokens of a part of this level with the value `x`, whatever stands
behind them. A sum ends only where no factor follows. -/
def Reads (word : Text → Except Error Int) : Nat → List Text → Except Error Int → Prop
  | 0, ts, x => ∀ t u, Ascii t → Laid ts t u → EndsProduct u →
    whole word .sum t = (do whole word (.sumRest (← Halt.ofExcept x)) u)
  | 1, ts, x => ∀ t u, Ascii t → Laid ts t u →
    whole word .product t = (do whole word (.productRest (← Halt.ofExcept x)) u)
  | _ + 2, ts, x => ∀ t u, Ascii t → Laid ts t u →
    whole word .signed t = (do .ok (← Halt.ofExcept x, u))

theorem whole_sum (t : Text) : whole word .sum t = (do
    let (a, u) ← whole word .product t
    whole word (.sumRest a) u) := by
  rw [whole_eq]
  rfl

theorem whole_product (t : Text) : whole word .product t = (do
    let (a, u) ← whole word .signed t
    whole word (.productRest a) u) := by
  rw [whole_eq]
  rfl

/-- What is at the end of a product is the operand of a sum. -/
theorem Reads.operand_product (h : Reads word 1 ts x) (ht : Ascii t)
    (hl : Laid ts t u) (hu : EndsProduct u) :
    whole word .product t = (do .ok (← Halt.ofExcept x, u)) := by
  rw [h t u ht hl]
  exact bind_congr fun a => whole_productRest_end (ht.suffix hl.suffix) hu a

theorem Reads.product (h : Reads word 2 ts x) : Reads word 1 ts x := by
  intro t u ht hl
  rw [whole_product, h t u ht hl]
  cases x <;> rfl

theorem Reads.sum (h : Reads word 1 ts x) : Reads word 0 ts x := by
  intro t u ht hl hu
  rw [whole_sum, h.operand_product ht hl hu]
  cases x <;> rfl

theorem Reads.lower {n k : Nat} (h : Reads word n ts x) (hk : k ≤ n) (hn : n ≤ 2) :
    Reads word k ts x := by
  obtain rfl | ⟨rfl, rfl⟩ | ⟨rfl, rfl⟩ | ⟨rfl, rfl⟩ :
      k = n ∨ n = 1 ∧ k = 0 ∨ n = 2 ∧ k = 1 ∨ n = 2 ∧ k = 0 := by omega
  · exact h
  · exact h.sum
  · exact h.product
  · exact h.product.sum

theorem Reads.enclosed (h : Reads word 0 ts x) : Reads word 2 (bracketed true ts) x := by
  intro t u ht hl
  obtain ⟨m, hopen, -, hl⟩ := hl.trimStart (.of_all nofun (by decide))
  obtain ⟨v, hv, hl⟩ := hl.split
  obtain ⟨_, hclose, -, hl⟩ := hl.trimStart (.of_all nofun (by decide))
  cases hl
  have hm := ht.behind hopen
  have hend : EndsSum v := by
    intro c hc
    rw [hclose] at hc
    cases hc
    rfl
  rw [whole_open ht hopen, h m v hm hv fun c hc => Or.inr (Or.inr (hend c hc))]
  cases x with
  | error err => rfl
  | ok a =>
    have hsum : whole word (.sumRest a) v = .ok (a, v) :=
      whole_sumRest_end (hm.suffix hv.suffix) hend a
    show (whole word (.sumRest a) v >>= fun p => whole word (.bracket p.1) p.2) = .ok (a, u)
    rw [hsum]
    exact whole_close hclose a

/-- A part of a lower level than is asked for is enclosed. -/
theorem Reads.bracketed {n k : Nat} (h : Reads word n ts x) (hn : n ≤ 2) (hk : k ≤ 2) :
    Reads word k (bracketed (n < k) ts) x := by
  by_cases hlt : n < k
  · rw [decide_eq_true hlt]
    exact (h.lower (Nat.zero_le n) hn).enclosed.lower hk (Nat.le_refl 2)
  · rw [decide_eq_false hlt]
    exact h.lower (Nat.le_of_not_lt hlt) hn

theorem reads_word (hw : IsToken w) (hend : ∀ c ∈ w, endsWord c = false) :
    Reads word 2 [w] (word w) := by
  intro t u ht hl
  obtain ⟨m, hm, hgap, hl⟩ := hl.trimStart hw
  cases hl
  refine whole_word ht hw.ne_nil hend hm fun c hc => ?_
  rw [hgap c hc]
  rfl

theorem Reads.negate (h : Reads word 2 ts x) :
    Reads word 2 (['-'] :: ts) (do .ok (wrap (-(← x)))) := by
  intro t u ht hl
  obtain ⟨m, hm, -, hl⟩ := hl.trimStart (.of_all nofun (by decide))
  rw [whole_minus hm, h m u (ht.behind hm) hl]
  cases x <;> rfl

theorem Reads.keep (h : Reads word 2 ts x) : Reads word 2 (['+'] :: ts) x := by
  intro t u ht hl
  obtain ⟨m, hm, -, hl⟩ := hl.trimStart (.of_all nofun (by decide))
  rw [whole_plus ht hm]
  exact h m u (ht.behind hm) hl

end Levels

section Operators

theorem isToken_operator (op : Operator) : IsToken op.text := by
  cases op <;> exact .of_all nofun (by decide)

theorem operator_cases (op : Operator) :
    op.level = 0 ∧ op.rest = Stage.sumRest ∧ op.operand = .product ∧
      (op.text = ['+'] ∨ op.text = ['-']) ∨
    op.level = 1 ∧ op.rest = Stage.productRest ∧ op.operand = .signed := by
  cases op with
  | add => exact Or.inl ⟨rfl, rfl, rfl, Or.inl rfl⟩
  | sub => exact Or.inl ⟨rfl, rfl, rfl, Or.inr rfl⟩
  | mul | div | mod => exact Or.inr ⟨rfl, rfl, rfl⟩

/-- Behind the left operand the operator is found, and the right one is read. -/
theorem whole_right (ht : Ascii t) (h : t.trimStart = op.text ++ m)
    (hy : whole word op.operand m = (do .ok (← Halt.ofExcept y, u))) (a : Int) :
    whole word (op.rest a) t =
      (do whole word (op.rest (← Halt.ofExcept (do op.outcome a (← y)))) u) := by
  rw [whole_operator op a ht h, hy]
  cases y <;> rfl

theorem Laid.operands (hl : Laid (ts ++ op.text :: ts') t u) (ht : Ascii t) :
    ∃ m v, Laid ts t m ∧ Ascii m ∧ m.trimStart = op.text ++ v ∧ Ascii v ∧ Laid ts' v u := by
  obtain ⟨m, hm, hl⟩ := hl.split
  obtain ⟨v, hv, -, hl⟩ := hl.trimStart (isToken_operator op)
  have hmascii := ht.suffix hm.suffix
  exact ⟨m, v, hm, hmascii, hv, hmascii.behind hv, hl⟩

theorem Reads.binary (hx : Reads word op.level ts x) (hy : Reads word (op.level + 1) ts' y) :
    Reads word op.level (ts ++ op.text :: ts') (do op.outcome (← x) (← y)) := by
  rcases operator_cases op with ⟨hlevel, hrest, hoperand, htext⟩ | ⟨hlevel, hrest, hoperand⟩
  · rw [hlevel] at hx hy ⊢
    intro t u ht hl hu
    obtain ⟨m, v, hm, hmascii, hv, hvascii, hl⟩ := hl.operands ht
    have hend : EndsProduct m := by
      intro c hc
      rw [hv] at hc
      rcases htext with htext | htext
      · rw [htext] at hc
        cases hc
        exact Or.inl rfl
      · rw [htext] at hc
        cases hc
        exact Or.inr (Or.inl rfl)
    have hright : whole word op.operand v = (do .ok (← Halt.ofExcept y, u)) := by
      rw [hoperand]
      exact hy.operand_product hvascii hl hu
    have hstep := whole_right hmascii hv hright
    rw [hrest] at hstep
    rw [hx t m ht hm hend]
    cases x with
    | error err => rfl
    | ok a => exact hstep a
  · rw [hlevel] at hx hy ⊢
    intro t u ht hl
    obtain ⟨m, v, hm, hmascii, hv, hvascii, hl⟩ := hl.operands ht
    have hright : whole word op.operand v = (do .ok (← Halt.ofExcept y, u)) := by
      rw [hoperand]
      exact hy v u hvascii hl
    have hstep := whole_right hmascii hv hright
    rw [hrest] at hstep
    rw [hx t m ht hm]
    cases x with
    | error err => rfl
    | ok a => exact hstep a

end Operators

section Formulas

theorem Constant.isToken (c : Constant) : IsToken c.text ∧ ∀ d ∈ c.text, endsWord d = false := by
  have hradix : (if c.isHex then 16 else 10) ≤ 16 := by split <;> decide
  have hdigits : ∀ d ∈ c.digits,
      d.utf8Size = 1 ∧ Text.isBlank d = false ∧ d ≠ '"' ∧ endsWord d = false :=
    c.spells.forall (by decide) hradix
  have htext : ∀ d ∈ c.text,
      d.utf8Size = 1 ∧ Text.isBlank d = false ∧ d ≠ '"' ∧ endsWord d = false := by
    unfold Constant.text
    split
    · exact List.forall_mem_cons.mpr ⟨by decide, hdigits⟩
    · exact hdigits
  have hne : c.text ≠ [] := by
    unfold Constant.text
    split
    · nofun
    · exact c.spells.1
  refine ⟨⟨hne, fun d hd => (htext d hd).1, fun d hd => (htext d hd).2.1, fun h => ?_⟩,
    fun d hd => (htext d hd).2.2.2⟩
  exact (htext '"' (List.mem_of_mem_head? h)).2.2.1 rfl

theorem Label.isToken (l : Label) : IsToken l.text ∧ ∀ d ∈ l.text, endsWord d = false := by
  refine ⟨⟨l.text_ne, fun c hc => Text.utf8Size_of_lt (l.ascii c hc), l.no_blank, l.no_quote⟩, ?_⟩
  intro c hc
  unfold endsWord
  rw [l.no_blank c hc, Bool.false_or]
  exact decide_eq_false (l.no_symbol c hc)

theorem Formula.level_le (e : Formula) : e.level ≤ 2 := by
  cases e with
  | binary op =>
    rcases operator_cases op with ⟨h, _⟩ | ⟨h, _⟩
    · exact Nat.le_trans (Nat.le_of_eq h) (by decide)
    · exact Nat.le_trans (Nat.le_of_eq h) (by decide)
  | _ => exact Nat.le_refl 2

theorem reads_formula (word : Text → Except Error Int) (e : Formula) :
    Reads word e.level e.tokens (e.run word) := by
  induction e with
  | constant c => exact reads_word c.isToken.1 c.isToken.2
  | named l => exact reads_word l.isToken.1 l.isToken.2
  | negate e ih => exact (ih.bracketed e.level_le (Nat.le_refl 2)).negate
  | keep e ih => exact (ih.bracketed e.level_le (Nat.le_refl 2)).keep
  | brackets e ih => exact (ih.lower (Nat.zero_le _) e.level_le).enclosed
  | binary op e f ihe ihf =>
    have hop : op.level + 1 ≤ 2 := by cases op <;> decide
    exact (ihe.bracketed e.level_le (Nat.le_of_succ_le hop)).binary (ihf.bracketed f.level_le hop)

theorem isToken_bracketed {needed : Bool} (hts : ∀ w ∈ ts, IsToken w) :
    ∀ w ∈ bracketed needed ts, IsToken w := by
  unfold bracketed
  split
  · rw [List.forall_mem_cons, List.forall_mem_append, List.forall_mem_singleton]
    exact ⟨.of_all nofun (by decide), hts, .of_all nofun (by decide)⟩
  · exact hts

theorem Formula.isToken (e : Formula) : ∀ w ∈ e.tokens, IsToken w := by
  induction e with
  | constant c => exact List.forall_mem_singleton.mpr c.isToken.1
  | named l => exact List.forall_mem_singleton.mpr l.isToken.1
  | negate e ih | keep e ih =>
    exact List.forall_mem_cons.mpr ⟨.of_all nofun (by decide), isToken_bracketed ih⟩
  | brackets e ih => exact isToken_bracketed ih
  | binary op e f ihe ihf =>
    rw [tokens, List.forall_mem_append, List.forall_mem_cons]
    exact ⟨isToken_bracketed ihe, isToken_operator op, isToken_bracketed ihf⟩

theorem Formula.tokens_ne_nil (e : Formula) : e.tokens ≠ [] := by
  cases e with
  | binary op e f => exact List.append_ne_nil_of_right_ne_nil _ (List.cons_ne_nil _ _)
  | _ => exact List.cons_ne_nil _ _

/-- Trimming takes only the spaces in front of the first token. -/
theorem Laid.trim (hl : Laid ts t []) (hne : ts ≠ []) (hts : ∀ w ∈ ts, IsToken w) :
    Laid ts t.trim [] ∧ t.trim.head? ≠ some '"' := by
  obtain ⟨w, ts, rfl⟩ := List.exists_cons_of_ne_nil hne
  have hw := hts w List.mem_cons_self
  obtain ⟨c, v, rfl⟩ := List.exists_cons_of_ne_nil hw.ne_nil
  have hlast := hl.last hts
  cases hl with
  | @cons gap _ _ t _ hend h =>
    have hcons : c :: v ++ t ≠ [] := List.cons_ne_nil c (v ++ t)
    have hhead : ∀ d ∈ (c :: v ++ t).head?, Text.isBlank d = false := fun d hd => by
      cases hd
      exact hw.no_blank c List.mem_cons_self
    rw [List.getLast?_append_of_ne_nil _ hcons] at hlast
    have htrim := Text.trim_between (isBlank_gap gap) (List.forall_mem_nil _) hhead hlast
    rw [List.append_nil] at htrim
    rw [htrim]
    exact ⟨.cons 0 (c :: v) hend h, hw.no_quote⟩

theorem evaluate_eq_run (vs : Variables) (r : Readings) (hl : Laid e.tokens t []) :
    evaluate vs r t = Halt.ofExcept ((e.run (wordValue vs r)).map Value.number) := by
  obtain ⟨hlaid, hquote⟩ := hl.trim e.tokens_ne_nil e.isToken
  have hsum := (reads_formula (wordValue vs r) e).lower (Nat.zero_le _) e.level_le
  have hread := hsum t.trim [] (hlaid.ascii e.isToken nofun) hlaid nofun
  have hrest : ∀ a, whole (wordValue vs r) (.sumRest a) [] = .ok (a, []) :=
    whole_sumRest_end nofun nofun
  unfold evaluate
  split
  · rename_i u hu
    exact absurd (by rw [hu]; rfl) hquote
  · unfold arithmetic
    rw [sum_eq_whole, hread]
    simp only [hrest]
    cases e.run (wordValue vs r) <;> rfl

/-- A formula that is written down, with spaces between its tokens, evaluates to the number it comes
to; and it fails exactly if one of its parts is at fault. It does either. -/
theorem evaluate_written (vs : Variables) (r : Readings) (hl : Laid e.tokens t []) :
    (∀ n, evaluate vs r t = .ok (.number n) ↔ Evaluates vs r e n) ∧
    ((∃ err, evaluate vs r t = .error (.failed err)) ↔ ∃ f ∈ e.parts, Faulty vs r f) ∧
    ((∃ n, Evaluates vs r e n) ∨ ∃ f ∈ e.parts, Faulty vs r f) := by
  have heval := evaluate_eq_run vs r hl
  simp only [← run_eq_ok_iff, ← run_fails_iff, heval]
  cases e.run (wordValue vs r) with
  | error err => simp [Halt.ofExcept, Except.map]
  | ok n => simp [Halt.ofExcept, Except.map]

/-- The remainder of `x` by the sum of a decimal and a hexadecimal one. -/
def parity : Formula :=
  .binary .mod
    (.named ⟨['x'], nofun, List.forall_mem_singleton.mpr (by decide),
      List.forall_mem_singleton.mpr (by decide), List.forall_mem_singleton.mpr (by decide),
      by decide, Expand.integer?_eq_none_iff.mp rfl⟩)
    (.binary .add
      (.constant ⟨false, ['1'], 1,
        ⟨nofun, [1], .cons ⟨by decide, Or.inl rfl⟩ .nil, rfl⟩, by decide⟩)
      (.constant ⟨true, ['1'], 1,
        ⟨nofun, [1], .cons ⟨by decide, Or.inl rfl⟩ .nil, rfl⟩, by decide⟩))

theorem evaluate_parity :
    Laid parity.tokens "x MOD ( 1 + &1 )".toList [] ∧
      evaluate [⟨['X'], .number 7⟩] default "x MOD ( 1 + &1 )".toList = .ok (.number 1) := by
  have hl : Laid parity.tokens "x MOD ( 1 + &1 )".toList [] := laid_joinWith parity.tokens
  have hx : Evaluates [⟨['X'], .number 7⟩] default parity 1 :=
    .binary (.named rfl (.number 7)) (.binary (.constant _) (.constant _) rfl) rfl
  exact ⟨hl, ((evaluate_written _ _ hl).1 1).mpr hx⟩

end Formulas

end CardShell.Expression
