import CardShell.Listing
import CardShell.Proofs.Text.Case
import Mathlib.Data.List.Nodup

/-!
The order of a listing. Of the entries of one directory no two have names that the order takes for
the same, so that there is one way only to list them, whatever way they came.
-/

set_option autoImplicit false

namespace CardShell.Listing

variable {a b c : Entry} {es es' : List Entry}

/-- `a` is a directory and `b` is none, or both are of a kind and the names, with capital letters
taken for small ones, come in this order. -/
def Precedes (a b : Entry) : Prop :=
  (a.isDirectory = true ∧ b.isDirectory = false) ∨
    (a.isDirectory = b.isDirectory ∧ Text.compareFold a.name b.name = .lt)

instance (a b : Entry) : Decidable (Precedes a b) := inferInstanceAs (Decidable (_ ∨ _))

theorem Precedes.trans (h : Precedes a b) (h' : Precedes b c) : Precedes a c := by
  rcases h with ⟨ha, hb⟩ | ⟨hab, hlt⟩
  · rcases h' with ⟨hb', _⟩ | ⟨hbc, _⟩
    · rw [hb] at hb'
      cases hb'
    · exact Or.inl ⟨ha, hbc ▸ hb⟩
  · rcases h' with ⟨hb, hc⟩ | ⟨hbc, hlt'⟩
    · exact Or.inl ⟨hab.trans hb, hc⟩
    · exact Or.inr ⟨hab.trans hbc, Text.compareFold_lt_trans hlt hlt'⟩

theorem not_precedes_self (a : Entry) : ¬ Precedes a a := by
  intro h
  rcases h with ⟨ha, ha'⟩ | ⟨_, hlt⟩
  · rw [ha] at ha'
    cases ha'
  · have heq : Text.compareFold a.name a.name = .eq := Text.compareFold_eq_iff.mpr rfl
    rw [heq] at hlt
    cases hlt

/-- Of a kind, with names that differ in the case of letters at most. -/
def Alike (a b : Entry) : Prop := a.isDirectory = b.isDirectory ∧ a.name.fold = b.name.fold

theorem Alike.precedes (h : Alike a b) (h' : Precedes b c) : Precedes a c := by
  rcases h' with ⟨hb, hc⟩ | ⟨hbc, hlt⟩
  · exact Or.inl ⟨h.1.trans hb, hc⟩
  · exact Or.inr ⟨h.1.trans hbc, Text.compareFold_congr_left h.2 c.name ▸ hlt⟩

theorem Precedes.alike (h : Precedes a b) (h' : Alike b c) : Precedes a c := by
  rcases h with ⟨ha, hb⟩ | ⟨hab, hlt⟩
  · exact Or.inl ⟨ha, h'.1 ▸ hb⟩
  · exact Or.inr ⟨hab.trans h'.1, Text.compareFold_congr_right h'.2 a.name ▸ hlt⟩

theorem precedes_cases (a b : Entry) : Precedes a b ∨ Precedes b a ∨ Alike a b := by
  unfold Precedes Alike
  cases ha : a.isDirectory <;> cases hb : b.isDirectory
  all_goals cases hcmp : Text.compareFold a.name b.name
  all_goals simp_all [Text.compareFold_eq_iff, Text.compareFold_gt_iff]

theorem before_iff : before a b = true ↔ Precedes a b ∨ Alike a b := by
  unfold before Precedes Alike
  cases ha : a.isDirectory <;> cases hb : b.isDirectory
  all_goals cases hcmp : Text.compareFold a.name b.name
  all_goals simp_all [← Text.compareFold_eq_iff]

theorem before_trans (h : before a b = true) (h' : before b c = true) : before a c = true := by
  rw [before_iff] at h h' ⊢
  rcases h with h | h
  · rcases h' with h' | h'
    · exact Or.inl (h.trans h')
    · exact Or.inl (h.alike h')
  · rcases h' with h' | h'
    · exact Or.inl (h.precedes h')
    · exact Or.inr ⟨h.1.trans h'.1, h.2.trans h'.2⟩

theorem before_total (a b : Entry) : (before a b || before b a) = true := by
  rw [Bool.or_eq_true, before_iff, before_iff]
  rcases precedes_cases a b with h | h | h
  · exact Or.inl (Or.inl h)
  · exact Or.inr (Or.inl h)
  · exact Or.inl (Or.inr h)

theorem sort_perm (es : List Entry) : (sort es).Perm es := List.mergeSort_perm es before

theorem sort_eq_nil_iff : sort es = [] ↔ es = [] := by
  rw [← List.length_eq_zero_iff, (sort_perm es).length_eq, List.length_eq_zero_iff]

/-- No two of the entries go by one name on a volume, where all letters lose their case. -/
def Separate (es : List Entry) : Prop := (es.map fun e => e.name.lower).Nodup

theorem Separate.nodup (h : Separate es) : es.Nodup := List.Nodup.of_map _ h

theorem Separate.perm (h : Separate es) (hperm : es'.Perm es) : Separate es' :=
  (hperm.map fun e : Entry => e.name.lower).nodup_iff.mpr h

theorem Separate.filter (h : Separate es) (p : Entry → Bool) : Separate (es.filter p) :=
  List.Nodup.sublist (List.filter_sublist.map _) h

/-- Names that the order takes for the same are the same to the volume as well. -/
theorem lower_eq_of_alike (h : Alike a b) : a.name.lower = b.name.lower := by
  rw [← Text.lower_fold a.name, h.2, Text.lower_fold]

theorem pairwise_sort (h : Separate es) : (sort es).Pairwise Precedes := by
  have hbefore : (sort es).Pairwise fun a b => before a b = true :=
    List.pairwise_mergeSort (fun a b c => before_trans (a := a) (b := b) (c := c)) before_total es
  have hseparate := List.pairwise_map.mp (h.perm (sort_perm es))
  apply (hbefore.and hseparate).imp
  intro a b hab
  rcases before_iff.mp hab.1 with hprecedes | halike
  · exact hprecedes
  · exact absurd (lower_eq_of_alike halike) hab.2

/-- Entries are listed in one order, whichever they come in. -/
theorem sort_eq (h : Separate es) (hperm : es'.Perm es) : sort es' = sort es := by
  have hperm' : (sort es').Perm (sort es) :=
    (sort_perm es').trans (hperm.trans (sort_perm es).symm)
  apply hperm'.eq_of_pairwise _ (pairwise_sort (h.perm hperm)) (pairwise_sort h)
  intro a b _ _ hab hba
  exact absurd (hab.trans hba) (not_precedes_self a)

end CardShell.Listing
