import CardShell.Text.Basic
import Mathlib.Data.List.Induction

/-!
Maps that keep their pairs in the order of the keys, which are texts. The keys that begin with a text
stand together in that order, so a scan that starts there and goes on while they do finds all of them
and no others.
-/

set_option autoImplicit false

namespace CardShell

namespace Text

variable {s t u : Text}

theorem compare_cons (c d : Char) (s t : Text) :
    compare (c :: s) (d :: t) = (compare c d).then (compare s t) := List.compareLex_cons_cons

theorem compare_ne_lt_of_prefix (h : s <+: t) : compare t s ≠ .lt := by
  induction s generalizing t with
  | nil => cases t <;> exact nofun
  | cons c s ih =>
    obtain ⟨r, rfl⟩ := h
    have hc : compare c c = .eq := Std.ReflCmp.compare_self
    rw [List.cons_append, compare_cons, hc]
    exact ih (List.prefix_append s r)

/-- Between a text and one that begins with it there are only texts that begin with it. -/
theorem prefix_of_between (hst : compare t s ≠ .lt) (htu : compare t u = .lt) (hsu : s <+: u) :
    s <+: t := by
  induction s generalizing t u with
  | nil => exact List.nil_prefix
  | cons c s ih =>
    obtain ⟨r, rfl⟩ := hsu
    cases t with
    | nil => exact absurd rfl hst
    | cons d t =>
      rw [List.cons_append] at htu
      rw [compare_cons] at hst htu
      cases hcd : compare d c with
      | lt => exact absurd (by rw [hcd]; rfl) hst
      | eq =>
        rw [hcd] at hst htu
        rw [Std.LawfulEqCmp.compare_eq_iff_eq.mp hcd]
        exact List.cons_prefix_cons.mpr ⟨rfl, ih hst htu (List.prefix_append s r)⟩
      | gt =>
        rw [hcd] at htu
        cases htu

end Text

abbrev TextMap (α : Type) := Std.TreeMap Text α

namespace TextMap

variable {α : Type} (m : TextMap α) (p : Text)

theorem getElem?_insert (k q : Text) (a : α) :
    (m.insert k a)[q]? = if k = q then some a else m[q]? := by
  rw [Std.TreeMap.getElem?_insert]
  simp only [Std.LawfulEqCmp.compare_eq_iff_eq]

theorem getElem?_erase (k q : Text) : (m.erase k)[q]? = if k = q then none else m[q]? := by
  rw [Std.TreeMap.getElem?_erase]
  simp only [Std.LawfulEqCmp.compare_eq_iff_eq]

theorem getElem?_modify (k q : Text) (f : α → α) :
    (m.modify k f)[q]? = if k = q then m[k]?.map f else m[q]? := by
  rw [Std.TreeMap.getElem?_modify]
  simp only [Std.LawfulEqCmp.compare_eq_iff_eq]

/-- The pairs from a key on. -/
def range : List (Text × α) := m.toList.dropWhile fun e => compare e.1 p = .lt

/-- The pairs whose keys begin with a text: those from that text on, for as long as they do. -/
def scan : List (Text × α) := (m.range p).takeWhile fun e => p.isPrefixOf e.1

theorem pairwise_toList : m.toList.Pairwise fun a b => compare a.1 b.1 = .lt :=
  Std.TreeMap.ordered_keys_toList

theorem pairwise_range : (m.range p).Pairwise fun a b => compare a.1 b.1 = .lt :=
  m.pairwise_toList.sublist (List.dropWhile_sublist _)

/-- From a key on there is nothing that comes before it. -/
theorem ne_lt_of_mem_range {e : Text × α} (h : e ∈ m.range p) : compare e.1 p ≠ .lt := by
  have hsorted := m.pairwise_range p
  unfold range at h hsorted
  generalize hl : m.toList.dropWhile (fun e => compare e.1 p = .lt) = l at h hsorted
  cases l with
  | nil => cases h
  | cons a l =>
    have ha : compare a.1 p ≠ .lt := by
      have hhead := List.head_dropWhile_not (fun e : Text × α => decide (compare e.1 p = .lt))
        (l := m.toList) (by rw [hl]; exact List.cons_ne_nil a l)
      simpa [hl] using hhead
    rcases List.mem_cons.mp h with rfl | h
    · exact ha
    · intro he
      exact ha (Std.TransCmp.lt_trans ((List.pairwise_cons.mp hsorted).1 e h) he)

theorem mem_range_of_prefix {e : Text × α} (h : e ∈ m.toList) (hp : p <+: e.1) : e ∈ m.range p := by
  rw [← List.takeWhile_append_dropWhile (p := fun e => compare e.1 p = .lt) (l := m.toList)] at h
  rcases List.mem_append.mp h with h | h
  · have hlt := List.all_eq_true.mp List.all_takeWhile e h
    exact absurd (of_decide_eq_true hlt) (Text.compare_ne_lt_of_prefix hp)
  · exact h

/-- In a sorted list that starts at a text, what begins with that text comes first. -/
theorem takeWhile_eq_filter {l : List (Text × α)} (hl : l.Pairwise fun a b => compare a.1 b.1 = .lt)
    (hge : ∀ e ∈ l, compare e.1 p ≠ .lt) :
    l.takeWhile (fun e => p.isPrefixOf e.1) = l.filter fun e => p.isPrefixOf e.1 := by
  induction l with
  | nil => rfl
  | cons a l ih =>
    obtain ⟨ha, hl⟩ := List.pairwise_cons.mp hl
    obtain ⟨hage, hge⟩ := List.forall_mem_cons.mp hge
    by_cases hp : p.isPrefixOf a.1 = true
    · rw [List.takeWhile_cons, List.filter_cons, if_pos hp, if_pos hp, ih hl hge]
    · rw [List.takeWhile_cons, List.filter_cons, if_neg hp, if_neg hp, eq_comm, List.filter_eq_nil_iff]
      intro b hb hpb
      rw [List.isPrefixOf_iff_prefix] at hp hpb
      exact hp (Text.prefix_of_between hage (ha b hb) hpb)

theorem scan_eq_filter : m.scan p = (m.range p).filter fun e => p.isPrefixOf e.1 :=
  takeWhile_eq_filter p (m.pairwise_range p) fun _ => m.ne_lt_of_mem_range p

/-- The scan neither misses a key nor adds one. -/
theorem mem_scan_iff {k : Text} {a : α} : (k, a) ∈ m.scan p ↔ m[k]? = some a ∧ p <+: k := by
  rw [scan_eq_filter, List.mem_filter, List.isPrefixOf_iff_prefix]
  constructor
  · rintro ⟨hmem, hp⟩
    have hlist := (List.dropWhile_sublist _).subset hmem
    exact ⟨Std.TreeMap.mem_toList_iff_getElem?_eq_some.mp hlist, hp⟩
  · rintro ⟨hk, hp⟩
    exact ⟨m.mem_range_of_prefix p (Std.TreeMap.mem_toList_iff_getElem?_eq_some.mpr hk) hp, hp⟩

theorem pairwise_scan : (m.scan p).Pairwise fun a b => compare a.1 b.1 = .lt :=
  (m.pairwise_range p).sublist (List.takeWhile_sublist _)

/-- Whether the scan finds anything shows at the first key. -/
theorem head_range_iff :
    ((m.range p).head?.any fun e => p.isPrefixOf e.1) = true ↔
      ∃ k a, m[k]? = some a ∧ p <+: k := by
  have hmem : (∃ k a, m[k]? = some a ∧ p <+: k) ↔ ∃ e, e ∈ m.scan p :=
    ⟨fun ⟨k, a, h⟩ => ⟨(k, a), (m.mem_scan_iff p).mpr h⟩,
      fun ⟨e, he⟩ => ⟨e.1, e.2, (m.mem_scan_iff p).mp he⟩⟩
  rw [hmem, scan]
  cases m.range p with
  | nil => simp
  | cons e l =>
    rw [List.head?_cons, Option.any_some]
    by_cases hp : p.isPrefixOf e.1 = true
    · rw [List.takeWhile_cons, if_pos hp]
      exact iff_of_true hp ⟨e, List.mem_cons_self⟩
    · rw [List.takeWhile_cons, if_neg hp]
      exact iff_of_false hp fun ⟨_, h⟩ => absurd h List.not_mem_nil

end TextMap

end CardShell
