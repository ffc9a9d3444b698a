import CardShell.Proofs.Flat.Volume
import CardShell.Proofs.Volume.Names
import CardShell.Proofs.Volume.Resolved

/-!
The texts of paths. Two paths of names have one text only if they are the same, the parent and the
last name of a path are cut out of its text at the last separator, and the texts of what lies below a
path are those that begin with its own and a separator.
-/

set_option autoImplicit false

namespace CardShell

namespace Path

/-- A path of names, as all paths to nodes are. -/
def Named (p : Path) : Prop := ∀ c ∈ p, IsName c

variable {p q : Path} {name : Text}

theorem named_nil : Named [] := fun _ h => absurd h List.not_mem_nil

theorem named_append : Named (p ++ q) ↔ p.Named ∧ q.Named := List.forall_mem_append

theorem Named.parent (h : p.Named) : p.parent.Named := fun c hc => h c (List.dropLast_subset p hc)

theorem Named.key (h : p.Named) : p.key.Named := by
  intro c hc
  obtain ⟨d, hd, rfl⟩ := List.mem_map.mp hc
  exact (h d hd).lower

theorem text_nil : text [] = ['/'] := rfl

theorem text_of_ne (h : p ≠ []) : p.text = p.flatMap ('/' :: ·) := if_neg h

theorem text_append (h : p ≠ []) (q : Path) : text (p ++ q) = p.text ++ q.flatMap ('/' :: ·) := by
  rw [text_of_ne h, text_of_ne (List.append_ne_nil_of_left_ne_nil h q), List.flatMap_append]

theorem text_inj (hp : p.Named) (hq : q.Named) (h : p.text = q.text) : p = q := by
  have hres := resolve_text hp []
  rw [h, resolve_text hq []] at hres
  exact (Except.ok.inj hres).symm

theorem text_eq_separator_iff (hp : p.Named) : p.text = ['/'] ↔ p = [] :=
  ⟨fun h => text_inj hp named_nil h, fun h => h ▸ rfl⟩

theorem text_lower (p : Path) : p.text.lower = p.key.text := (text_key p).symm

theorem text_eq_concat (h : p ≠ []) : ∃ s, p.text = s ++ '/' :: p.leaf ∧
    (s = [] ∧ p.parent = [] ∨ s = p.parent.text ∧ p.parent ≠ []) := by
  have hsplit := parent_append_leaf h
  by_cases hparent : p.parent = []
  · rw [hparent, List.nil_append] at hsplit
    refine ⟨[], ?_, Or.inl ⟨rfl, hparent⟩⟩
    rw [text_of_ne h]
    nth_rewrite 1 [← hsplit]
    exact List.append_nil _
  · refine ⟨p.parent.text, ?_, Or.inr ⟨rfl, hparent⟩⟩
    nth_rewrite 1 [← hsplit]
    rw [text_append hparent, List.flatMap_singleton]

end Path

namespace FlatVolume

open Path

variable {p q : Path} {name : Text}

theorem join_text (hp : p.Named) (name : Text) : join p.text name = text (p ++ [name]) := by
  unfold join
  by_cases h : p = []
  · subst h
    rw [text_nil, if_pos rfl, List.nil_append, text_of_ne (List.cons_ne_nil _ _),
      List.flatMap_singleton]
  · rw [if_neg (mt (text_eq_separator_iff hp).mp h), text_append h, List.flatMap_singleton]

/-- The last separator of the text of a path stands in front of its last name. -/
theorem rfind_text (h : p ≠ []) (hp : p.Named) {s : Text} (hs : p.text = s ++ '/' :: p.leaf) :
    Text.rfind? (· = '/') p.text = some s.size := by
  have hleaf : ∀ d ∈ p.leaf, decide (d = '/') = false :=
    fun d hd => decide_eq_false fun he => (hp p.leaf (leaf_mem h)).no_separator (he ▸ hd)
  rw [hs]
  exact Text.rfind?_append hleaf (decide_eq_true rfl) s

theorem parentOf_text (hp : p.Named) : parentOf p.text = .ok p.parent.text := by
  by_cases h : p = []
  · subst h
    rfl
  · obtain ⟨s, hs, ⟨rfl, hparent⟩ | ⟨rfl, hparent⟩⟩ := text_eq_concat h
    · unfold parentOf
      rw [rfind_text h hp hs, hparent]
      rfl
    · have hpos : p.parent.text.size ≠ 0 := by
        intro he
        cases hl : p.parent with
        | nil => exact hparent hl
        | cons c r =>
          rw [hl, text_of_ne (List.cons_ne_nil c r), List.flatMap_cons, List.cons_append,
            Text.size_cons] at he
          have hsep := Char.utf8Size_pos '/'
          omega
      unfold parentOf
      rw [rfind_text h hp hs]
      cases hsize : p.parent.text.size with
      | zero => exact absurd hsize hpos
      | succ n =>
        show cut (Text.upTo? (n + 1) p.text) = _
        rw [← hsize, hs, Text.upTo?_append]
        rfl

theorem leafOf_text (hp : p.Named) : leafOf p.text = .ok p.leaf := by
  by_cases h : p = []
  · subst h
    rfl
  · obtain ⟨s, hs, _⟩ := text_eq_concat h
    have hsep : '/'.utf8Size = 1 := by decide
    have hsize : 1 < p.text.size := by
      rw [hs, Text.size_append, Text.size_cons]
      have hname := (hp p.leaf (leaf_mem h)).ne_nil
      cases hl : p.leaf with
      | nil => exact absurd hl hname
      | cons c r =>
        have hpos := c.utf8Size_pos
        rw [Text.size_cons]
        omega
    unfold leafOf
    rw [rfind_text h hp hs]
    dsimp only
    rw [if_pos hsize, hs, Text.from?_succ hsep]
    rfl

/-- What the keys begin with that lie below the key of a path. -/
theorem childPrefix_text (hp : p.Named) : childPrefix p.text = p.flatMap ('/' :: ·) ++ ['/'] := by
  unfold childPrefix
  by_cases h : p = []
  · subst h
    rfl
  · rw [if_neg (mt (text_eq_separator_iff hp).mp h), text_of_ne h]

theorem text_below (hp : p.Named) (name : Text) (r : Path) :
    text (p ++ name :: r) = childPrefix p.text ++ (name ++ r.flatMap ('/' :: ·)) := by
  rw [text_of_ne (List.append_ne_nil_of_right_ne_nil p (List.cons_ne_nil name r)),
    childPrefix_text hp, List.flatMap_append, List.flatMap_cons]
  simp only [List.append_assoc, List.cons_append, List.nil_append]

/-- Beginning like that, and lying below, are one thing but for the root, which is not below itself. -/
theorem childPrefix_prefix_iff (hp : p.Named) (hq : q.Named) (hne : q ≠ []) :
    childPrefix p.text <+: q.text ↔ ∃ name r, q = p ++ name :: r := by
  constructor
  · rintro ⟨rest, hrest⟩
    have hsplit := splitOn_text hq hne
    rw [← hrest] at hsplit
    have hparts : Text.splitOn '/' (childPrefix p.text ++ rest) = [] :: (p ++ Text.splitOn '/' rest) := by
      by_cases h : p = []
      · subst h
        exact Text.splitOn_cons_self '/' rest
      · have hpre : childPrefix p.text ++ rest = p.text ++ '/' :: rest := by
          rw [childPrefix_text hp, text_of_ne h, List.append_assoc, List.singleton_append]
        rw [hpre, Text.splitOn_append, splitOn_text hp h, List.cons_append]
    rw [hparts] at hsplit
    obtain ⟨name, r, hr⟩ := List.exists_cons_of_ne_nil (Text.splitOn_ne_nil '/' rest)
    exact ⟨name, r, by rw [← (List.cons.inj hsplit).2, hr]⟩
  · rintro ⟨name, r, rfl⟩
    rw [text_below hp]
    exact List.prefix_append _ _

end FlatVolume

end CardShell
