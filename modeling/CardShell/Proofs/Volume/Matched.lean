import CardShell.Proofs.PathText
import CardShell.Proofs.Shell.Walk
import CardShell.Proofs.Volume.Enumerated

/-!
The entries that a typed pattern is matched against. What is joined to the directory of the pattern
leads below that directory and nowhere else, so that the path made from the name of an entry leads back
to the entry.
-/

set_option autoImplicit false

namespace CardShell.Volume

open CardShell.Path CardShell.PathText

variable {v : Volume} {dir name : Text} {e : Entry} {es : List Entry}

theorem resolve_join_name (v : Volume) (dir : Text) (hname : IsName name) :
    v.resolve (join dir name) = (v.resolve (toOpen dir)).map (· ++ [name]) := by
  unfold resolve
  rw [resolve_toOpen, PathText.resolve_join v.directory dir hname]

/-- A directory gives exactly the entries that their names, joined to it, lead to. -/
theorem mem_entriesOf_iff (hv : v.WellFormed) (hes : v.entriesOf (toOpen dir) = .ok es) :
    e ∈ es ↔ IsName e.name ∧ v.stat (join dir e.name) = .ok e := by
  obtain ⟨p, hp, rfl⟩ := resolve_of_entriesOf hes
  have hjoin : IsName e.name → v.resolve (join dir e.name) = .ok (p ++ [e.name]) := by
    intro hname
    rw [resolve_join_name v dir hname, hp]
    rfl
  constructor
  · intro he
    have hname := isName_of_mem_children hv he
    obtain ⟨n, hnode, hentry⟩ := (mem_children_iff hv).mp ⟨he, rfl⟩
    exact ⟨hname, stat_ok_iff.mpr ⟨_, n, hjoin hname, by rwa [key_concat], hentry⟩⟩
  · rintro ⟨hname, hstat⟩
    obtain ⟨q, n, hq, hnode, hentry⟩ := stat_ok_iff.mp hstat
    cases (hjoin hname).symm.trans hq
    rw [key_concat] at hnode
    exact ((mem_children_iff hv).mpr ⟨n, hnode, hentry⟩).1

/-- A typed path asks for matches just if its last part has a wildcard. The pattern is then in one part,
and a name joined to the directory leads where that name leads in the pattern's place: right below the
directory that is opened, or nowhere if that leads nowhere. What is enumerated there is exactly what the
names of the entries, joined to the directory, lead to. -/
theorem matches_denote_entries (label : Text) (ops : List Operation) (typed : Text) :
    let v := (labelled label).runAll ops
    ((∃ dir pattern, split typed = .matching dir pattern) ↔
      Glob.hasWildcard (baseName typed) = true) ∧
    ∀ dir pattern, split typed = .matching dir pattern →
      '/' ∉ pattern ∧ Glob.hasWildcard pattern = true ∧
      (∀ name, IsName name →
        v.resolve (join dir name) = (v.resolve (toOpen dir)).map (· ++ [name])) ∧
      (∃ front, typed = front ++ pattern ∧
        ∀ name, IsName name → v.resolve (front ++ name) = v.resolve (join dir name)) ∧
      ∀ h w, openListing (toOpen dir) v = .ok h w → ∃ es, w.listings.get? h = some es ∧
        ∀ e, e ∈ es ↔ IsName e.name ∧ v.stat (join dir e.name) = .ok e := by
  intro v
  have hv : v.WellFormed := (wellFormed_labelled label).runAll ops
  constructor
  · rcases split_cases typed with ⟨hplain, hsplit⟩ | ⟨hwild, dir, hsplit, _⟩
    · rw [hsplit, hplain]
      simp
    · exact ⟨fun _ => hwild, fun _ => ⟨dir, _, hsplit⟩⟩
  · intro dir pattern hsplit
    obtain ⟨hslash, hwild, _⟩ := matching_of_split hsplit
    obtain ⟨front, htyped, hplace⟩ := resolve_in_place hsplit
    refine ⟨hslash, hwild, fun name hname => resolve_join_name v dir hname,
      ⟨front, htyped, fun name hname => hplace v.directory hname.no_separator⟩, ?_⟩
    intro h w hopen
    rw [openListing_eq] at hopen
    cases hes : v.entriesOf (toOpen dir) with
    | error x =>
      rw [hes] at hopen
      cases hopen
    | ok es =>
      rw [hes] at hopen
      cases hopen
      exact ⟨es, Table.get?_set_self _ _ _, fun e => mem_entriesOf_iff hv hes⟩

/-- The pattern is typed below `/sub` for the directory above it, with a separator too many. -/
theorem matches_denote_entries_above :
    let v := (labelled []).runAll
      [.makeDirectory "/sub", .writeFile "/Top.txt" [1], .changeDirectory "sub"]
    let top : Entry := ⟨"Top.txt", 1, {}, ⟨0x20⟩⟩
    v.currentDirectory = "/sub".toList ∧ split "..//t*" = .matching "../" "t*" ∧
    IsName "Top.txt" ∧ v.resolve (toOpen "../") = .ok [] ∧
    v.resolve (join "../" "Top.txt") = .ok ["Top.txt"] ∧
    v.resolve "..//Top.txt" = v.resolve (join "../" "Top.txt") ∧
    ∃ h w es, openListing (toOpen "../") v = .ok h w ∧ w.listings.get? h = some es ∧ top ∈ es ∧
      v.stat (join "../" "Top.txt") = .ok top := by
  intro v top
  obtain ⟨_, hall⟩ := matches_denote_entries []
    [.makeDirectory "/sub", .writeFile "/Top.txt" [1], .changeDirectory "sub"] "..//t*"
  have hsplit : split "..//t*" = .matching "../" "t*" := by decide
  have hname : IsName "Top.txt" := ⟨by decide, by decide, by decide, by decide⟩
  obtain ⟨_, _, hjoin, ⟨front, hfront, hplace⟩, hlisted⟩ := hall _ _ hsplit
  have hdir : v.resolve (toOpen "../") = .ok [] := by decide +kernel
  have hfront : front = "..//".toList := List.append_cancel_right hfront.symm
  have hplace := hplace _ hname
  rw [hfront] at hplace
  have hfind : v.find (toOpen "../") = .ok ([], v.root) := by decide +kernel
  have hes : v.entriesOf (toOpen "../") = .ok (v.children []) := by
    unfold entriesOf
    rw [hfind]
    rfl
  have hopen := openListing_eq (toOpen "../") v
  rw [hes] at hopen
  obtain ⟨es, hget, hmem⟩ := hlisted _ _ hopen
  have hstat : v.stat (join "../" "Top.txt") = .ok top := by decide +kernel
  have hchild := hjoin _ hname
  rw [hdir] at hchild
  exact ⟨by decide +kernel, hsplit, hname, hdir, hchild, hplace, _, _, es, hopen,
    hget, (hmem top).mpr ⟨hname, hstat⟩, hstat⟩

end CardShell.Volume
