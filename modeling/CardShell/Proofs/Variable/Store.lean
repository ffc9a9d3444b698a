import CardShell.Proofs.Text.Case
import CardShell.Variable.Store

/-!
The store of variables. It is kept in the order of the labels, so that a search that halves it
finds what a search from its start finds; and as long as no variable that stands for the machine is
written over, these variables stay what they were when the store was set up.
-/

set_option autoImplicit false

namespace CardShell.Variables

open Text

/-- The labels rise, up to case; so no two of them are the same. -/
def Ordered (vs : Variables) : Prop := vs.Pairwise fun v w => compareFold v.label w.label = .lt

instance (vs : Variables) : Decidable vs.Ordered := by
  unfold Ordered
  infer_instance

/-- A store taken apart at a label: what stands before it, the variable of that label, if there is
one, and what stands behind. -/
structure Parted (label : Text) (vs before : Variables) (found : Option Variable)
    (behind : Variables) : Prop where
  parts : vs = before ++ (found.toList ++ behind)
  lt : ∀ v ∈ before, compareFold v.label label = .lt
  eq : ∀ v ∈ found, compareFold v.label label = .eq
  gt : ∀ v ∈ behind, compareFold v.label label = .gt

variable {vs before behind : Variables} {found : Option Variable} {label pattern : Text}
  {value : Value} {v : Variable}

theorem Ordered.parted (h : vs.Ordered) (label : Text) :
    ∃ before found behind, Parted label vs before found behind := by
  induction vs with
  | nil => exact ⟨[], none, [], rfl, by simp, by simp, by simp⟩
  | cons v vs ih =>
    obtain ⟨hv, hvs⟩ := List.pairwise_cons.mp h
    have hgt : ∀ {t}, compareFold t v.label = .lt ∨ compareFold t v.label = .eq →
        ∀ w ∈ vs, compareFold w.label t = .gt := by
      intro t ht w hw
      rw [compareFold_gt_iff]
      rcases ht with ht | ht
      · exact compareFold_lt_trans ht (hv w hw)
      · rw [compareFold_congr_left (compareFold_eq_iff.mp ht)]
        exact hv w hw
    cases hc : compareFold v.label label with
    | lt =>
      obtain ⟨before, found, behind, hp⟩ := ih hvs
      refine ⟨v :: before, found, behind, congrArg (v :: ·) hp.parts, ?_, hp.eq, hp.gt⟩
      exact List.forall_mem_cons.mpr ⟨hc, hp.lt⟩
    | eq =>
      refine ⟨[], some v, vs, rfl, by simp, by simpa using hc, hgt (Or.inr ?_)⟩
      rw [compareFold_eq_iff] at hc ⊢
      exact hc.symm
    | gt =>
      refine ⟨[], none, v :: vs, rfl, by simp, by simp, ?_⟩
      exact List.forall_mem_cons.mpr ⟨hc, hgt (Or.inl (compareFold_gt_iff.mp hc))⟩

namespace Parted

theorem found_eq (h : Parted label vs before found behind) (hv : v ∈ vs)
    (he : compareFold v.label label = .eq) : found = some v := by
  rw [h.parts, List.mem_append, List.mem_append, Option.mem_toList] at hv
  rcases hv with hv | hv | hv
  · rw [h.lt v hv] at he
    cases he
  · exact hv
  · rw [h.gt v hv] at he
    cases he

theorem get?_eq (h : Parted label vs before found behind) : vs.get? label = found := by
  obtain ⟨rfl, hlt, heq, hgt⟩ := h
  have hbehind : get? label behind = none := by
    clear hlt
    induction behind with
    | nil => rfl
    | cons v behind ih =>
      obtain ⟨hv, hrest⟩ := List.forall_mem_cons.mp hgt
      rw [get?, if_neg (by rw [sameFold_iff, hv]; decide)]
      exact ih hrest
  induction before with
  | nil =>
    cases found with
    | none => exact hbehind
    | some v => exact if_pos (sameFold_iff.mpr (heq v rfl))
  | cons v before ih =>
    obtain ⟨hv, hrest⟩ := List.forall_mem_cons.mp hlt
    rw [List.cons_append, get?, if_neg (by rw [sameFold_iff, hv]; decide)]
    exact ih hrest

theorem insert_eq (h : Parted label vs before found behind) (value : Value) :
    vs.insert label value =
      before ++ ⟨(found.map Variable.label).getD label, value⟩ :: behind := by
  obtain ⟨rfl, hlt, heq, hgt⟩ := h
  induction before with
  | nil =>
    cases found with
    | some v =>
      show insert label value (v :: behind) = _
      rw [insert, heq v rfl]
      rfl
    | none =>
      show insert label value behind = ⟨label, value⟩ :: behind
      cases behind with
      | nil => rfl
      | cons v behind => rw [insert, hgt v List.mem_cons_self]
  | cons v before ih =>
    obtain ⟨hv, hrest⟩ := List.forall_mem_cons.mp hlt
    rw [List.cons_append, insert, hv]
    exact congrArg (v :: ·) (ih hrest)

theorem remove_eq (h : Parted label vs before found behind) : vs.remove label = before ++ behind := by
  obtain ⟨rfl, hlt, heq, hgt⟩ := h
  have hkeep : ∀ ws : Variables, (∀ v ∈ ws, compareFold v.label label ≠ .eq) →
      remove label ws = ws := by
    intro ws hws
    refine List.filter_eq_self.mpr fun v hv => ?_
    rw [Bool.not_eq_true', Bool.eq_false_iff, ne_eq, sameFold_iff]
    exact hws v hv
  have hfound : remove label found.toList = [] := by
    refine List.filter_eq_nil_iff.mpr fun v hv => ?_
    rw [Bool.not_eq_true, Bool.not_eq_false', sameFold_iff]
    exact heq v (by simpa using hv)
  unfold remove at hkeep hfound ⊢
  rw [List.filter_append, List.filter_append, hfound, hkeep before, hkeep behind, List.nil_append]
  · exact fun v hv => by rw [hgt v hv]; decide
  · exact fun v hv => by rw [hlt v hv]; decide

end Parted

section InOrder

theorem ordered_append_iff {vs ws : Variables} : (vs ++ ws).Ordered ↔
    vs.Ordered ∧ ws.Ordered ∧ ∀ v ∈ vs, ∀ w ∈ ws, compareFold v.label w.label = .lt :=
  List.pairwise_append

theorem Ordered.filter (h : vs.Ordered) (p : Variable → Bool) : Ordered (vs.filter p) :=
  List.Pairwise.filter p h

theorem Ordered.insert (h : vs.Ordered) (label : Text) (value : Value) :
    (vs.insert label value).Ordered := by
  obtain ⟨before, found, behind, hp⟩ := h.parted label
  rw [hp.insert_eq value]
  obtain ⟨rfl, hlt, heq, hgt⟩ := hp
  obtain ⟨hbefore, hrest, hcross⟩ := ordered_append_iff.mp h
  obtain ⟨_, hbehind, _⟩ := ordered_append_iff.mp hrest
  have hfold : fold ((found.map Variable.label).getD label) = fold label := by
    cases found with
    | none => rfl
    | some v => exact compareFold_eq_iff.mp (heq v rfl)
  refine ordered_append_iff.mpr ⟨hbefore, List.pairwise_cons.mpr ⟨fun w hw => ?_, hbehind⟩, ?_⟩
  · rw [compareFold_congr_left hfold]
    exact compareFold_gt_iff.mp (hgt w hw)
  · refine fun v hv => List.forall_mem_cons.mpr ⟨?_, fun w hw => ?_⟩
    · rw [compareFold_congr_right hfold]
      exact hlt v hv
    · exact hcross v hv w (List.mem_append_right _ hw)

/-- A label is the label of one variable at most. -/
theorem Ordered.unique (h : vs.Ordered) {w : Variable} (hv : v ∈ vs) (hw : w ∈ vs)
    (he : sameFold v.label w.label = true) : v = w := by
  obtain ⟨before, found, behind, hp⟩ := h.parted w.label
  have hfound := hp.found_eq hv (sameFold_iff.mp he)
  have hfound' := hp.found_eq hw (compareFold_eq_iff.mpr rfl)
  exact Option.some.inj (hfound.symm.trans hfound')

end InOrder

section Codes

def codes (vs : Variables) : Variables := vs.filter fun v => v.value.isCode

theorem codes_insert (hvalue : value.isCode = false)
    (h : ∀ v, vs.get? label = some v → v.value.isCode = false) :
    (vs.insert label value).codes = vs.codes := by
  unfold codes
  induction vs with
  | nil => rw [insert, List.filter_cons_of_neg (by simp [hvalue])]
  | cons v vs ih =>
    rw [get?] at h
    rw [insert]
    cases hc : compareFold v.label label with
    | lt =>
      rw [if_neg (by rw [sameFold_iff, hc]; decide)] at h
      rw [List.filter_cons, List.filter_cons, ih h]
    | eq =>
      rw [if_pos (sameFold_iff.mpr hc)] at h
      rw [List.filter_cons_of_neg (by simp [hvalue]), List.filter_cons_of_neg (by simp [h v rfl])]
    | gt => rw [List.filter_cons_of_neg (by simp [hvalue])]

theorem codes_unset (pattern : Text) (vs : Variables) : (vs.unset pattern).codes = vs.codes := by
  unfold codes unset
  rw [List.filter_filter]
  refine List.filter_congr fun v _ => ?_
  cases v.value.isCode <;> simp

theorem mem_unset_iff : v ∈ vs.unset pattern ↔
    v ∈ vs ∧ ¬ (v.value.isCode = false ∧ Glob.isMatch pattern v.label = true) := by
  unfold unset
  rw [List.mem_filter]
  cases v.value.isCode <;> simp

/-- The store is in order, and the machine is reached through the variables that it was given at
first and no others. -/
structure Sound (vs : Variables) : Prop where
  ordered : vs.Ordered
  codes : vs.codes = [⟨"Console", .code .console⟩, ⟨"Current$Dir", .code .directory⟩,
    ⟨"Keyboard", .code .keyboard⟩, ⟨"Sys$Date", .code .date⟩, ⟨"Sys$Time", .code .time⟩,
    ⟨"Sys$Year", .code .year⟩]

theorem sound_system : system.Sound := ⟨by decide +kernel, by decide +kernel⟩

theorem Sound.insert (h : vs.Sound) (hvalue : value.isCode = false)
    (hget : ∀ v, vs.get? label = some v → v.value.isCode = false) :
    (vs.insert label value).Sound :=
  ⟨h.ordered.insert label value, (codes_insert hvalue hget).trans h.codes⟩

theorem Sound.unset (h : vs.Sound) (pattern : Text) : (vs.unset pattern).Sound :=
  ⟨h.ordered.filter _, (codes_unset pattern vs).trans h.codes⟩

end Codes

section Halving

/-- Halves the `size` variables from `base` on until one is left: the last that does not stand
behind the label, or else the first of all. -/
def halving (label : Text) (vs : Variables) (base size : Nat) : Nat :=
  if 1 < size then
    if vs[base + size / 2]?.any fun v => compareFold v.label label == .gt then
      halving label vs base (size - size / 2)
    else halving label vs (base + size / 2) (size - size / 2)
  else base
termination_by size

/-- The place of the variable of that label, or else the place where it has to go. -/
def position (label : Text) (vs : Variables) : Except Nat Nat :=
  let i := halving label vs 0 vs.length
  match vs[i]? with
  | none => .error 0
  | some v => match compareFold v.label label with
    | .eq => .ok i
    | .lt => .error (i + 1)
    | .gt => .error i

/-- In order or not, the variable that is left is one of them. -/
theorem halving_lt {label : Text} {vs : Variables} {base size : Nat} (hsize : 0 < size) :
    halving label vs base size < base + size := by
  fun_induction halving label vs base size with
  | case1 base size hmore habove ih =>
    have hlt := ih (by omega)
    omega
  | case2 base size hmore habove ih =>
    have hlt := ih (by omega)
    omega
  | case3 base size hlast => omega

def lookUp (label : Text) (vs : Variables) : Option Variable :=
  match position label vs with
  | .ok i => vs[i]?
  | .error _ => none

def put (label : Text) (value : Value) (vs : Variables) : Variables :=
  match position label vs with
  | .ok i => vs.modify i fun v => { v with value := value }
  | .error i => vs.take i ++ ⟨label, value⟩ :: vs.drop i

def takeOut (label : Text) (vs : Variables) : Variables :=
  match position label vs with
  | .ok i => vs.eraseIdx i
  | .error _ => vs

/-- The labels that `unset` has to take out. -/
def doomed (pattern : Text) (vs : Variables) : List Text :=
  (vs.filter fun v => !v.value.isCode && Glob.isMatch pattern v.label).map Variable.label

namespace Parted

/-- How many variables do not stand behind the label. -/
def upTo (before : Variables) (found : Option Variable) : Nat :=
  (before ++ found.toList).length

theorem gt_iff (h : Parted label vs before found behind) {i : Nat} (hv : vs[i]? = some v) :
    compareFold v.label label = .gt ↔ upTo before found ≤ i := by
  rw [h.parts, ← List.append_assoc] at hv
  rcases Nat.lt_or_ge i (upTo before found) with hlt | hle
  · rw [List.getElem?_append_left hlt] at hv
    refine ⟨fun hgt => ?_, fun hle => absurd hlt (Nat.not_lt.mpr hle)⟩
    rcases List.mem_append.mp (List.mem_of_getElem? hv) with hmem | hmem
    · rw [h.lt v hmem] at hgt
      cases hgt
    · rw [h.eq v (Option.mem_toList.mp hmem)] at hgt
      cases hgt
  · rw [List.getElem?_append_right hle] at hv
    exact ⟨fun _ => hle, fun _ => h.gt v (List.mem_of_getElem? hv)⟩

theorem halving_eq (h : Parted label vs before found behind) {base size : Nat} (hsize : 0 < size)
    (hin : base + size ≤ vs.length) (hlow : base = 0 ∨ base < upTo before found)
    (hhigh : upTo before found ≤ base + size) :
    halving label vs base size = upTo before found - 1 := by
  have hmid : ∀ i, i < vs.length →
      ((vs[i]?.any fun v => compareFold v.label label == .gt) = true ↔ upTo before found ≤ i) := by
    intro i hi
    rw [← h.gt_iff (List.getElem?_eq_getElem hi), List.getElem?_eq_getElem hi, Option.any_some,
      beq_iff_eq]
  fun_induction halving label vs base size with
  | case1 base size hmore habove ih =>
    have hle := (hmid _ (by omega)).mp habove
    exact ih (by omega) (by omega) hlow (by omega)
  | case2 base size hmore habove ih =>
    have hlt := mt (hmid _ (by omega)).mpr habove
    exact ih (by omega) (by omega) (by omega) (by omega)
  | case3 base size hlast => omega

theorem position_eq (h : Parted label vs before found behind) :
    position label vs = if found.isSome then .ok before.length else .error before.length := by
  have hlen : vs.length = upTo before found + behind.length := by
    rw [h.parts, ← List.append_assoc, List.length_append]
    rfl
  have hupTo : upTo before found = before.length + found.toList.length := List.length_append
  have hat : halving label vs 0 vs.length = upTo before found - 1 := by
    rcases Nat.eq_zero_or_pos vs.length with hzero | hpos
    · rw [hzero, halving, if_neg (by omega)]
      omega
    · exact h.halving_eq hpos (by omega) (Or.inl rfl) (by omega)
  unfold position
  rw [hat]
  cases found with
  | some v =>
    have hi : upTo before (some v) - 1 = before.length := by
      rw [hupTo]
      rfl
    have hv : vs[before.length]? = some v := by
      rw [h.parts]
      simp
    simp only [hi, hv, h.eq v rfl]
    rfl
  | none =>
    have hi : upTo before none = before.length := hupTo
    rw [hi]
    rcases Nat.eq_zero_or_pos before.length with hzero | hpos
    · rw [hzero]
      show (match vs[0]? with
        | none => _
        | some v => _) = _
      cases hv : vs[0]? with
      | none => rfl
      | some v => simp [(h.gt_iff hv).mpr (by omega)]
    · have hlast : before.length - 1 < before.length := by omega
      have hv : vs[before.length - 1]? = some before[before.length - 1] := by
        rw [h.parts, List.getElem?_append_left hlast, List.getElem?_eq_getElem hlast]
      simp only [hv, h.lt _ (List.getElem_mem hlast)]
      exact congrArg Except.error (by omega)

end Parted

/-- Halving comes to the same as going through the store from its start. -/
theorem Ordered.lookUp_eq (h : vs.Ordered) (label : Text) : vs.lookUp label = vs.get? label := by
  obtain ⟨before, found, behind, hp⟩ := h.parted label
  rw [lookUp, hp.position_eq, hp.get?_eq, hp.parts]
  cases found with
  | none => rfl
  | some v => simp

theorem Ordered.put_eq (h : vs.Ordered) (label : Text) (value : Value) :
    vs.put label value = vs.insert label value := by
  obtain ⟨before, found, behind, hp⟩ := h.parted label
  rw [put, hp.position_eq, hp.insert_eq, hp.parts]
  cases found with
  | none => simp
  | some v => simp [List.modify_eq_take_drop]

theorem Ordered.takeOut_eq (h : vs.Ordered) (label : Text) : vs.takeOut label = vs.remove label := by
  obtain ⟨before, found, behind, hp⟩ := h.parted label
  rw [takeOut, hp.position_eq, hp.remove_eq, hp.parts]
  cases found with
  | none => simp
  | some v => simp [List.eraseIdx_append_of_length_le]

theorem Ordered.takeOut_all (h : vs.Ordered) (labels : List Text) :
    labels.foldl (fun vs label => takeOut label vs) vs =
      vs.filter fun v => !labels.any (sameFold v.label) := by
  induction labels generalizing vs with
  | nil =>
    rw [List.foldl_nil, List.filter_eq_self.mpr]
    simp
  | cons label labels ih =>
    rw [List.foldl_cons, h.takeOut_eq, remove, ih (h.filter _), List.filter_filter]
    refine List.filter_congr fun v _ => ?_
    rw [List.any_cons, Bool.not_or, Bool.and_comm]

/-- `unset` takes out one doomed label after the other. -/
theorem Ordered.unset_eq (h : vs.Ordered) (pattern : Text) :
    vs.unset pattern = (doomed pattern vs).foldl (fun vs label => takeOut label vs) vs := by
  rw [h.takeOut_all, unset]
  refine List.filter_congr fun v hv => ?_
  have hdoomed : (doomed pattern vs).any (sameFold v.label) = true ↔
      v.value.isCode = false ∧ Glob.isMatch pattern v.label = true := by
    unfold doomed
    rw [List.any_eq_true]
    constructor
    · rintro ⟨label, hlabel, he⟩
      obtain ⟨w, hw, rfl⟩ := List.mem_map.mp hlabel
      obtain ⟨hmem, hw⟩ := List.mem_filter.mp hw
      rw [h.unique hv hmem he]
      simpa using hw
    · intro hd
      have hself : sameFold v.label v.label = true := sameFold_iff.mpr (compareFold_eq_iff.mpr rfl)
      exact ⟨v.label, List.mem_map.mpr ⟨v, List.mem_filter.mpr ⟨hv, by simpa using hd⟩, rfl⟩, hself⟩
  rw [Bool.eq_iff_iff, Bool.not_eq_true', Bool.eq_false_iff, ne_eq, hdoomed]
  cases v.value.isCode <;> simp

end Halving

end CardShell.Variables
