import CardShell.Proofs.Volume.WellFormed
import Mathlib.Data.List.Nodup

/-!
The entries of a directory. They are what `node?` finds one name below it, each of them once.
-/

set_option autoImplicit false

namespace CardShell

namespace Forest

variable {κ α β : Type} {t : Forest κ α} {k : κ} {a : α}

theorem nodup_names (h : Distinct t) : (names t).Nodup := by
  induction t with
  | nil => exact List.nodup_nil
  | cons n v i r _ ih => exact List.nodup_cons.mpr ⟨h.1, ih h.2.2⟩

variable [DecidableEq κ]

theorem mem_names_of_get? (h : get? [k] t = some a) : k ∈ names t := by
  induction t with
  | nil => cases h
  | cons n v i r _ ih =>
    rw [get?_cons] at h
    split at h
    · rename_i hn
      rw [hn]
      exact List.mem_cons_self
    · exact List.mem_cons_of_mem n (ih h)

theorem mem_values_iff (h : Distinct t) : a ∈ values t ↔ ∃ k, get? [k] t = some a := by
  induction t with
  | nil => simp [values]
  | cons n v i r _ ih =>
    obtain ⟨hn, _, hr⟩ := h
    rw [values, List.mem_cons, ih hr]
    constructor
    · rintro (rfl | ⟨k, hk⟩)
      · exact ⟨n, by rw [get?_cons, if_pos rfl, if_pos rfl]⟩
      · refine ⟨k, ?_⟩
        rw [get?_cons, if_neg, hk]
        rintro rfl
        exact hn (mem_names_of_get? hk)
    · rintro ⟨k, hk⟩
      rw [get?_cons] at hk
      split at hk
      · rw [if_pos rfl] at hk
        cases hk
        exact Or.inl rfl
      · exact Or.inr ⟨k, hk⟩

/-- What tells the names of entries tells it in the order of the entries. -/
theorem map_values (h : Distinct t) {f : α → β} {g : κ → β}
    (hf : ∀ k a, get? [k] t = some a → f a = g k) : (values t).map f = (names t).map g := by
  induction t with
  | nil => rfl
  | cons n v i r _ ih =>
    obtain ⟨hn, _, hr⟩ := h
    rw [values, names, List.map_cons, List.map_cons]
    congr 1
    · exact hf n v (by rw [get?_cons, if_pos rfl, if_pos rfl])
    · refine ih hr fun k a hk => hf k a ?_
      rw [get?_cons, if_neg, hk]
      rintro rfl
      exact hn (mem_names_of_get? hk)

end Forest

namespace Volume

variable {v : Volume} {key : Path} {n : Node} {e : Entry}

theorem get?_inside (v : Volume) (key : Path) (k : Text) :
    (v.nodes.inside key).get? [k] = v.node? (key ++ [k]) := by
  rw [node?_of_ne v (by simp), Forest.get?_append _ (List.cons_ne_nil _ _)]

theorem mem_childNodes_iff (h : v.WellFormed) :
    n ∈ v.childNodes key ↔ ∃ k, v.node? (key ++ [k]) = some n := by
  unfold childNodes
  rw [(List.mergeSort_perm _ _).mem_iff, Forest.mem_values_iff (Forest.distinct_inside h.distinct key)]
  simp only [get?_inside]

/-- An entry is stored right below its directory, and under the lower-case form of its name. -/
theorem childNode_path (h : v.WellFormed) (hn : n ∈ v.childNodes key) :
    ∃ d, v.node? key = some d ∧ n.path = d.path ++ [n.path.leaf] ∧ Path.IsName n.path.leaf ∧
      v.node? (key ++ [n.path.leaf.lower]) = some n := by
  obtain ⟨k, hk⟩ := (mem_childNodes_iff h).mp hn
  obtain ⟨d, name, hd, _, hname, hpath⟩ := h.parent hk (by simp)
  rw [List.dropLast_concat] at hd
  have hleaf : n.path.leaf = name := by
    rw [hpath, Path.leaf, List.getLast?_concat]
    rfl
  refine ⟨d, hd, by rw [hleaf, hpath], hleaf ▸ hname, ?_⟩
  have hkey : n.path.key = key ++ [name.lower] := by rw [hpath, key_concat, h.key_path hd]
  rw [hleaf, ← hkey, h.key_path hk, hk]

theorem childNode_key (h : v.WellFormed) (hn : n ∈ v.childNodes key) :
    n.path.key = key ++ [n.path.leaf.lower] := by
  obtain ⟨_, _, _, _, hnode⟩ := childNode_path h hn
  exact h.key_path hnode

theorem nodup_childNodes (h : v.WellFormed) (key : Path) :
    ((v.childNodes key).map fun n => n.path.key).Nodup := by
  have hdistinct := Forest.distinct_inside h.distinct key
  have hmap := Forest.map_values hdistinct (f := fun n => n.path.key) (g := fun k => key ++ [k])
    fun k a ha => h.key_path ((get?_inside v key k).symm.trans ha)
  unfold childNodes
  rw [((List.mergeSort_perm _ _).map _).nodup_iff, hmap]
  refine List.Pairwise.map _ (fun k l hne he => hne ?_) (Forest.nodup_names hdistinct)
  exact (List.cons.inj (List.append_cancel_left he)).1

/-- A directory lists its entries in the order in which they came to their places. -/
theorem pairwise_childNodes (h : v.WellFormed) (key : Path) :
    (v.childNodes key).Pairwise fun a b => a.order < b.order := by
  have hsorted : (v.childNodes key).Pairwise fun a b => a.order ≤ b.order := by
    have hle : (v.childNodes key).Pairwise fun a b => decide (a.order ≤ b.order) = true := by
      apply List.pairwise_mergeSort
      · simp only [decide_eq_true_eq]
        omega
      · simp only [Bool.or_eq_true, decide_eq_true_eq]
        omega
    simp only [decide_eq_true_eq] at hle
    exact hle
  have hdistinct : (v.childNodes key).Pairwise fun a b => a ≠ b :=
    List.Nodup.of_map _ (nodup_childNodes h key)
  apply (hsorted.and hdistinct).imp_of_mem
  intro a b ha hb ⟨hle, hne⟩
  obtain ⟨k, hk⟩ := (mem_childNodes_iff h).mp ha
  obtain ⟨l, hl⟩ := (mem_childNodes_iff h).mp hb
  apply Nat.lt_of_le_of_ne hle
  intro he
  rw [h.order_inj hk hl he, hl] at hk
  exact hne (Option.some.inj hk).symm

/-- The entries of a directory have only one such order. -/
theorem childNodes_eq (h : v.WellFormed) {l : List Node}
    (hmem : ∀ n, n ∈ l ↔ ∃ k, v.node? (key ++ [k]) = some n)
    (horder : l.Pairwise fun a b => a.order < b.order) : v.childNodes key = l := by
  have hwas := pairwise_childNodes h key
  have hnodup : ∀ {l : List Node}, (l.Pairwise fun a b => a.order < b.order) → l.Nodup := by
    intro l hl
    apply hl.imp
    rintro a b hab rfl
    exact Nat.lt_irrefl _ hab
  have hperm : (v.childNodes key).Perm l := by
    apply (List.perm_ext_iff_of_nodup (hnodup hwas) (hnodup horder)).mpr
    intro n
    rw [mem_childNodes_iff h, hmem]
  apply hperm.eq_of_pairwise _ hwas horder
  intro a b _ _ hab hba
  omega

theorem nodup_children (h : v.WellFormed) (key : Path) :
    ((v.children key).map fun e => e.name.lower).Nodup := by
  have hkeys : (v.childNodes key).map (fun n => n.path.key) =
      ((v.children key).map fun e => e.name.lower).map fun name => key ++ [name] := by
    rw [children, List.map_map, List.map_map]
    exact List.map_congr_left fun n hn => childNode_key h hn
  exact List.Nodup.of_map _ (hkeys ▸ nodup_childNodes h key)

theorem isName_of_mem_children (h : v.WellFormed) (he : e ∈ v.children key) : Path.IsName e.name := by
  obtain ⟨n, hn, rfl⟩ := List.mem_map.mp he
  obtain ⟨_, _, _, hname, _⟩ := childNode_path h hn
  exact hname

end Volume

end CardShell
