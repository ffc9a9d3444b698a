import Mathlib.Data.List.Sort
import CardShell.Proofs.Variable.Store

/-!
The store as a map. Whatever has been inserted and removed, a label finds what the edits have left
under it up to case, and no edit of another label has any part in that. Looking for the next match
behind the last one found goes through all matches, each once and in order, and it finds its place
as well behind a label that is not there.
-/

set_option autoImplicit false

namespace CardShell.Variables

open Text

inductive Edit
  | insert (label : Text) (value : Value)
  | remove (label : Text)
  deriving DecidableEq, Repr

namespace Edit

def apply (vs : Variables) : Edit → Variables
  | insert label value => vs.insert label value
  | remove label => vs.remove label

/-- What an edit makes of the variable whose label folds to `key`: the last value stays, and the
spelling of the first insertion since the last removal. -/
def onKey (key : Text) (o : Option Variable) : Edit → Option Variable
  | insert label value =>
    if fold label = key then some ⟨(o.map Variable.label).getD label, value⟩ else o
  | remove label => if fold label = key then none else o

end Edit

def edited (edits : List Edit) (vs : Variables) : Variables := edits.foldl Edit.apply vs

variable {vs before behind : Variables} {found : Option Variable} {label pattern : Text}
  {value : Value} {v : Variable}

section OneEdit

theorem sameFold_eq (s t : Text) : sameFold s t = decide (fold s = fold t) := by
  rw [Bool.eq_iff_iff, sameFold_iff, compareFold_eq_iff, decide_eq_true_iff]

theorem get?_cons (v : Variable) (vs : Variables) (label : Text) :
    get? label (v :: vs) = if fold v.label = fold label then some v else get? label vs := by
  rw [get?, sameFold_eq]
  simp only [decide_eq_true_eq]

theorem get?_congr {label' : Text} (h : fold label = fold label') (vs : Variables) :
    vs.get? label = vs.get? label' := by
  induction vs with
  | nil => rfl
  | cons v vs ih => rw [get?_cons, get?_cons, ih, h]

theorem get?_insert_of_ne {other : Text} (h : fold other ≠ fold label) :
    (vs.insert other value).get? label = vs.get? label := by
  induction vs with
  | nil => rw [insert, get?_cons, if_neg h]
  | cons v vs ih =>
    rw [insert]
    cases hc : compareFold v.label other with
    | lt => rw [get?_cons, get?_cons, ih]
    | eq =>
      rw [get?_cons, get?_cons, if_neg, if_neg]
      · rwa [compareFold_eq_iff.mp hc]
      · rwa [compareFold_eq_iff.mp hc]
    | gt => rw [get?_cons, if_neg h]

theorem Ordered.get?_insert_self (h : vs.Ordered) (label : Text) (value : Value) :
    (vs.insert label value).get? label =
      some ⟨((vs.get? label).map Variable.label).getD label, value⟩ := by
  obtain ⟨before, found, behind, hp⟩ := h.parted label
  rw [hp.get?_eq, hp.insert_eq value]
  refine Parted.get?_eq ⟨rfl, hp.lt, ?_, hp.gt⟩
  rintro w ⟨⟩
  cases found with
  | none => exact compareFold_eq_iff.mpr rfl
  | some v => exact hp.eq v rfl

theorem get?_remove (vs : Variables) (other label : Text) :
    (vs.remove other).get? label = if fold other = fold label then none else vs.get? label := by
  unfold remove
  induction vs with
  | nil =>
    rw [List.filter_nil, get?]
    exact (ite_self none).symm
  | cons v vs ih =>
    by_cases hv : fold v.label = fold other
    · rw [List.filter_cons_of_neg (by simp [sameFold_eq, hv]), ih, get?_cons, hv]
      split
      · rfl
      · rfl
    · rw [List.filter_cons_of_pos (by simp [sameFold_eq, hv]), get?_cons, ih, get?_cons]
      by_cases ho : fold other = fold label
      · rw [if_pos ho, if_pos ho, if_neg (ho ▸ hv)]
      · rw [if_neg ho, if_neg ho]

theorem Ordered.get?_apply (h : vs.Ordered) (e : Edit) (label : Text) :
    (e.apply vs).get? label = e.onKey (fold label) (vs.get? label) := by
  cases e with
  | remove other => exact get?_remove vs other label
  | insert other value =>
    rw [Edit.onKey, Edit.apply]
    by_cases ho : fold other = fold label
    · rw [if_pos ho, ← get?_congr ho, h.get?_insert_self, get?_congr ho]
    · rw [if_neg ho, get?_insert_of_ne ho]

theorem Ordered.apply (h : vs.Ordered) (e : Edit) : (e.apply vs).Ordered := by
  cases e with
  | insert label value => exact h.insert label value
  | remove label => exact h.filter _

end OneEdit

theorem Ordered.edited (h : vs.Ordered) (edits : List Edit) : (edited edits vs).Ordered := by
  induction edits generalizing vs with
  | nil => exact h
  | cons e edits ih => exact ih (h.apply e)

theorem Ordered.get?_edited (h : vs.Ordered) (edits : List Edit) (label : Text) :
    (Variables.edited edits vs).get? label =
      edits.foldl (Edit.onKey (fold label)) (vs.get? label) := by
  induction edits generalizing vs with
  | nil => rfl
  | cons e edits ih =>
    rw [List.foldl_cons, ← h.get?_apply e label]
    exact ih (h.apply e)

section Matches

/-- The place behind a label is found by halving. -/
def findBehind (pattern : Text) (after : Option Text) (vs : Variables) : Option Variable :=
  let start := match after with
    | none => 0
    | some label => match position label vs with
      | .ok i => i + 1
      | .error i => i
  List.find? (fun v => Glob.isMatch pattern v.label) (vs.drop start)

theorem Parted.behind_eq (h : Parted label vs before found behind) :
    vs.behind (some label) = behind := by
  have hle : ∀ v ∈ before ++ found.toList, (compareFold v.label label != .gt) = true := by
    intro v hv
    rcases List.mem_append.mp hv with hv | hv
    · rw [h.lt v hv]
      rfl
    · rw [h.eq v (Option.mem_toList.mp hv)]
      rfl
  rw [Variables.behind, h.parts, ← List.append_assoc, List.dropWhile_append_of_pos hle]
  cases behind with
  | nil => rfl
  | cons v behind =>
    refine List.dropWhile_cons_of_neg ?_
    rw [h.gt v List.mem_cons_self]
    decide

theorem Ordered.findBehind_eq (h : vs.Ordered) (pattern : Text) (after : Option Text) :
    vs.findBehind pattern after = vs.find? pattern after := by
  cases after with
  | none => rfl
  | some label =>
    obtain ⟨before, found, behind, hp⟩ := h.parted label
    rw [find?, hp.behind_eq, findBehind, hp.position_eq, hp.parts]
    cases found with
    | none => simp
    | some v => simp

theorem Ordered.parted_at {front back : Variables} (h : (front ++ v :: back).Ordered) :
    Parted v.label (front ++ v :: back) front (some v) back := by
  obtain ⟨_, hrest, hcross⟩ := ordered_append_iff.mp h
  obtain ⟨hv, _⟩ := List.pairwise_cons.mp hrest
  refine ⟨rfl, fun w hw => hcross w hw v List.mem_cons_self, ?_, ?_⟩
  · rintro w ⟨⟩
    exact compareFold_eq_iff.mpr rfl
  · exact fun w hw => compareFold_gt_iff.mpr (hv w hw)

theorem behind_suffix (after : Option Text) (vs : Variables) : vs.behind after <:+ vs := by
  cases after with
  | none => exact List.suffix_rfl
  | some label => exact List.dropWhile_suffix _

/-- Behind a variable that was found there is less to go through, and it is what was left there. -/
theorem Ordered.find?_some (h : vs.Ordered) {after : Option Text}
    (hf : vs.find? pattern after = some v) :
    (vs.behind after).matching pattern = v :: (vs.behind (some v.label)).matching pattern ∧
      (vs.behind (some v.label)).length < (vs.behind after).length := by
  obtain ⟨hmatch, front, back, hparts, hfront⟩ := List.find?_eq_some_iff_append.mp hf
  obtain ⟨skipped, hvs⟩ := behind_suffix after vs
  have hall : vs = (skipped ++ front) ++ v :: back := by rw [← hvs, hparts, List.append_assoc]
  have hback : vs.behind (some v.label) = back := by
    rw [hall] at h ⊢
    exact h.parted_at.behind_eq
  rw [hback, hparts]
  constructor
  · have hnone : matching pattern front = [] :=
      List.filter_eq_nil_iff.mpr fun w hw => by simpa using hfront w hw
    unfold matching at hnone ⊢
    rw [List.filter_append, hnone, List.nil_append]
    exact List.filter_cons_of_pos hmatch
  · simp only [List.length_append, List.length_cons]
    omega

/-- The variables found one after the other, each looked for behind the last, until there is none. -/
inductive Visits (pattern : Text) (vs : Variables) : Option Text → Variables → Prop
  | ended {after : Option Text} (h : vs.find? pattern after = none) : Visits pattern vs after []
  | next {after : Option Text} {v : Variable} {rest : Variables}
    (h : vs.find? pattern after = some v) (hrest : Visits pattern vs (some v.label) rest) :
    Visits pattern vs after (v :: rest)

theorem matching_eq_nil {after : Option Text} (h : vs.find? pattern after = none) :
    (vs.behind after).matching pattern = [] :=
  List.filter_eq_nil_iff.mpr fun v hv => List.find?_eq_none.mp h v hv

theorem Ordered.visits_iff (h : vs.Ordered) {after : Option Text} {l : Variables} :
    Visits pattern vs after l ↔ l = (vs.behind after).matching pattern := by
  constructor
  · intro hl
    induction hl with
    | ended hf => exact (matching_eq_nil hf).symm
    | next hf _ ih => rw [(h.find?_some hf).1, ih]
  · rintro rfl
    induction hn : (vs.behind after).length using Nat.strongRecOn generalizing after with
    | _ n ih =>
      cases hf : vs.find? pattern after with
      | none =>
        rw [matching_eq_nil hf]
        exact .ended hf
      | some v =>
        obtain ⟨hmatching, hlt⟩ := h.find?_some hf
        rw [hmatching]
        exact .next hf (ih _ (hn ▸ hlt) rfl)

/-- The first match in the order of the labels that stands strictly behind a label. -/
structure IsNext (pattern label : Text) (vs : Variables) (v : Variable) : Prop where
  mem : v ∈ vs
  isMatch : Glob.isMatch pattern v.label = true
  behind : compareFold label v.label = .lt
  first : ∀ w ∈ vs, Glob.isMatch pattern w.label = true → compareFold label w.label = .lt →
    w = v ∨ compareFold v.label w.label = .lt

theorem Ordered.mem_behind_iff (h : vs.Ordered) :
    v ∈ vs.behind (some label) ↔ v ∈ vs ∧ compareFold label v.label = .lt := by
  obtain ⟨before, found, behind, hp⟩ := h.parted label
  rw [hp.behind_eq, ← compareFold_gt_iff]
  constructor
  · intro hv
    refine ⟨?_, hp.gt v hv⟩
    rw [hp.parts]
    exact List.mem_append_right _ (List.mem_append_right _ hv)
  · rintro ⟨hv, hgt⟩
    rw [hp.parts, List.mem_append, List.mem_append, Option.mem_toList] at hv
    rcases hv with hv | hv | hv
    · cases (hp.lt v hv).symm.trans hgt
    · cases (hp.eq v hv).symm.trans hgt
    · exact hv

theorem Ordered.isNext_of_find? (h : vs.Ordered) (hf : vs.find? pattern (some label) = some v) :
    IsNext pattern label vs v := by
  obtain ⟨hmatch, front, back, hparts, hfront⟩ := List.find?_eq_some_iff_append.mp hf
  have hbehind : Ordered (front ++ v :: back) :=
    hparts ▸ List.Pairwise.sublist (behind_suffix _ vs).sublist h
  obtain ⟨hmem, hlt⟩ := h.mem_behind_iff.mp (hparts ▸ List.mem_append_right front List.mem_cons_self)
  refine ⟨hmem, hmatch, hlt, fun w hw hwmatch hwlt => ?_⟩
  have hw : w ∈ front ++ v :: back := hparts ▸ h.mem_behind_iff.mpr ⟨hw, hwlt⟩
  rcases List.mem_append.mp hw with hw | hw
  · have hnot := hfront w hw
    rw [hwmatch] at hnot
    cases hnot
  · rcases List.mem_cons.mp hw with rfl | hw
    · exact Or.inl rfl
    · exact Or.inr (compareFold_gt_iff.mp (hbehind.parted_at.gt w hw))

theorem IsNext.unique {w : Variable} (hv : IsNext pattern label vs v)
    (hw : IsNext pattern label vs w) : v = w := by
  rcases hv.first w hw.mem hw.isMatch hw.behind with heq | hlt
  · exact heq.symm
  · rcases hw.first v hv.mem hv.isMatch hv.behind with heq | hlt'
    · exact heq
    · have hgt := compareFold_gt_iff.mpr hlt'
      cases hlt.symm.trans hgt

theorem Ordered.find?_eq_some_iff (h : vs.Ordered) :
    vs.find? pattern (some label) = some v ↔ IsNext pattern label vs v := by
  refine ⟨h.isNext_of_find?, fun hv => ?_⟩
  cases hf : vs.find? pattern (some label) with
  | none =>
    have hmem := h.mem_behind_iff.mpr ⟨hv.mem, hv.behind⟩
    exact absurd hv.isMatch (List.find?_eq_none.mp hf v hmem)
  | some w => rw [(h.isNext_of_find? hf).unique hv]

end Matches

section AsMap

/-- The edits have made a map of the store: its labels rise; halving finds what is there; a label
finds what the edits with its key, one after the other, make of what it found at the start; the
matches of a pattern are gone through in order, each once, and then there are none; and a search
from any label finds the first match behind it. -/
structure MapsTo (start : Variables) (edits : List Edit) (vs : Variables) : Prop where
  ordered : vs.Ordered
  get? : ∀ label, vs.get? label = edits.foldl (Edit.onKey (fold label)) (start.get? label)
  lookUp : ∀ label, vs.lookUp label = vs.get? label
  put : ∀ label value, vs.put label value = vs.insert label value
  takeOut : ∀ label, vs.takeOut label = vs.remove label
  findBehind : ∀ pattern after, vs.findBehind pattern after = vs.find? pattern after
  visits : ∀ pattern l, Visits pattern vs none l ↔
    l.Ordered ∧ ∀ v, v ∈ l ↔ v ∈ vs ∧ Glob.isMatch pattern v.label = true
  isNext : ∀ pattern label v,
    vs.find? pattern (some label) = some v ↔ IsNext pattern label vs v

/-- A row of variables in order is decided by which variables are in it. -/
theorem Ordered.ext {l l' : Variables} (h : l.Ordered) (h' : l'.Ordered)
    (hmem : ∀ v, v ∈ l ↔ v ∈ l') : l = l' := by
  have hirrefl : Std.Irrefl fun v w : Variable => compareFold v.label w.label = .lt :=
    ⟨fun v hv => by rw [compareFold_eq_iff.mpr rfl] at hv; cases hv⟩
  have hantisymm : Std.Antisymm fun v w : Variable => compareFold v.label w.label = .lt :=
    ⟨fun v w hvw hwv => by cases hvw.symm.trans (compareFold_gt_iff.mpr hwv)⟩
  exact List.Pairwise.eq_of_mem_iff h h' hmem

theorem Ordered.mapsTo {start : Variables} (h : start.Ordered) (edits : List Edit) :
    MapsTo start edits (Variables.edited edits start) := by
  have hvs := h.edited edits
  refine ⟨hvs, h.get?_edited edits, hvs.lookUp_eq, hvs.put_eq, hvs.takeOut_eq, hvs.findBehind_eq,
    fun pattern l => ?_, fun pattern label v => hvs.find?_eq_some_iff⟩
  have hordered : ((Variables.edited edits start).matching pattern).Ordered := hvs.filter _
  have hmem : ∀ v, v ∈ (Variables.edited edits start).matching pattern ↔
      v ∈ Variables.edited edits start ∧ Glob.isMatch pattern v.label = true :=
    fun v => List.mem_filter
  rw [hvs.visits_iff]
  constructor
  · rintro rfl
    exact ⟨hordered, hmem⟩
  · rintro ⟨hl, hlmem⟩
    exact hl.ext hordered fun v => (hlmem v).trans (hmem v).symm

/-- The store is a map from labels up to case after any insertions and removals, whether it was
empty at the start or held the variables of a machine that has just been started. -/
theorem mapsTo_of_edits (edits : List Edit) :
    MapsTo [] edits (edited edits []) ∧ MapsTo system edits (edited edits system) :=
  ⟨Ordered.mapsTo List.Pairwise.nil edits, sound_system.ordered.mapsTo edits⟩

end AsMap

end CardShell.Variables
