import Mathlib.Data.List.Nodup
import CardShell.Host.Import
import CardShell.Proofs.Volume.Names

/-!
What a directory tree of the host holds, seen without the case of its names: at each path the entry that
was listed last. Where no file has the path of a directory, and no two files have one path, the order of
the listings plays no part.
-/

set_option autoImplicit false

namespace CardShell

namespace HostTree

/-- What is found at a path: a directory, or a file with its bytes. -/
inductive Item
  | directory
  | file (data : List UInt8)
  deriving DecidableEq

namespace Item

def isDirectory : Item → Bool
  | directory => true
  | file _ => false

def data? : Item → Option (List UInt8)
  | directory => none
  | file data => some data

end Item

/-- All that is in the tree, by its path from the top and in the order in which it is copied: each
directory comes right before what it holds. -/
def entries : HostTree → List (Path × Item)
  | nil => []
  | file name data rest => ([name], .file data) :: rest.entries
  | directory name inside rest =>
    ([name], .directory) :: (inside.entries.map fun e => (name :: e.1, e.2)) ++ rest.entries

def files (t : HostTree) : List (Path × List UInt8) :=
  t.entries.filterMap fun e => e.2.data?.map fun data => (e.1, data)

def directories (t : HostTree) : List Path :=
  (t.entries.filter fun e => e.2.isDirectory).map Prod.fst

/-- The volume takes all names of the tree. -/
def Accepted (t : HostTree) : Prop := ∀ e ∈ t.entries, ∀ name ∈ e.1, Path.IsName name

instance (t : HostTree) : Decidable t.Accepted :=
  inferInstanceAs (Decidable (∀ e ∈ t.entries, ∀ name ∈ e.1, Path.IsName name))

theorem files_file (name : Text) (data : List UInt8) (rest : HostTree) :
    (file name data rest).files = ([name], data) :: rest.files := rfl

theorem files_directory (name : Text) (inside rest : HostTree) :
    (directory name inside rest).files =
      inside.files.map (fun f => (name :: f.1, f.2)) ++ rest.files := by
  simp only [files, entries, List.cons_append, List.filterMap_cons, Item.data?, Option.map_none,
    List.filterMap_append, List.filterMap_map, List.map_filterMap]
  congr 1
  refine List.filterMap_congr fun e _ => ?_
  obtain ⟨path, item⟩ := e
  cases item <;> rfl

theorem mem_files {t : HostTree} {f : Path × List UInt8} :
    f ∈ t.files ↔ (f.1, .file f.2) ∈ t.entries := by
  unfold files
  rw [List.mem_filterMap]
  constructor
  · rintro ⟨⟨path, item⟩, he, hf⟩
    cases item with
    | directory => cases hf
    | file data =>
      cases hf
      exact he
  · intro he
    exact ⟨_, he, rfl⟩

theorem mem_directories {t : HostTree} {d : Path} :
    d ∈ t.directories ↔ (d, .directory) ∈ t.entries := by
  unfold directories
  rw [List.mem_map]
  constructor
  · rintro ⟨⟨path, item⟩, he, rfl⟩
    obtain ⟨he, hdir⟩ := List.mem_filter.mp he
    cases item with
    | directory => exact he
    | file data => cases hdir
  · intro he
    exact ⟨_, List.mem_filter.mpr ⟨he, rfl⟩, rfl⟩

/-- The one that was listed last of those at a key. -/
def lastAt (es : List (Path × Item)) (key : Path) : Option Item :=
  ((es.filter fun e => e.1.key = key).getLast?).map Prod.snd

def item? (t : HostTree) (key : Path) : Option Item := lastAt t.entries key

theorem lastAt_cons (e : Path × Item) (es : List (Path × Item)) (key : Path) :
    lastAt (e :: es) key = (lastAt es key).or (if key = e.1.key then some e.2 else none) := by
  unfold lastAt
  rw [List.filter_cons]
  by_cases he : e.1.key = key
  · rw [if_pos (by simpa using he), if_pos he.symm, List.getLast?_cons]
    cases (es.filter fun e => e.1.key = key).getLast? <;> rfl
  · rw [if_neg (by simpa using he), if_neg (Ne.symm he)]
    cases ((es.filter fun e => e.1.key = key).getLast?).map Prod.snd <;> rfl

theorem lastAt_eq_some {es : List (Path × Item)} {key : Path} {item : Item}
    (h : lastAt es key = some item) : ∃ e ∈ es, e.1.key = key ∧ e.2 = item := by
  obtain ⟨e, he, rfl⟩ := Option.map_eq_some_iff.mp h
  obtain ⟨hmem, hkey⟩ := List.mem_filter.mp (List.mem_of_getLast? he)
  exact ⟨e, hmem, by simpa using hkey, rfl⟩

theorem exists_lastAt {es : List (Path × Item)} {e : Path × Item} (he : e ∈ es) :
    ∃ item, lastAt es e.1.key = some item := by
  unfold lastAt
  cases hlast : (es.filter fun e' => e'.1.key = e.1.key).getLast? with
  | some last => exact ⟨_, rfl⟩
  | none =>
    have hnil := List.getLast?_eq_none_iff.mp hlast
    have hmem : e ∈ es.filter fun e' => e'.1.key = e.1.key := List.mem_filter.mpr ⟨he, by simp⟩
    rw [hnil] at hmem
    cases hmem

/-- Each entry lies in a directory that is there, or that comes before it. -/
def Rooted : (there : Path → Prop) → List (Path × Item) → Prop
  | _, [] => True
  | there, e :: es => e.1 ≠ [] ∧ there e.1.parent.key ∧
    Rooted (fun key => there key ∨ key = e.1.key ∧ e.2 = .directory) es

namespace Rooted

variable {there more : Path → Prop} {es later : List (Path × Item)}

theorem mono (h : Rooted there es) (hmore : ∀ key, there key → more key) : Rooted more es := by
  induction es generalizing there more with
  | nil => trivial
  | cons e es ih =>
    obtain ⟨hne, hparent, hrest⟩ := h
    exact ⟨hne, hmore _ hparent, ih hrest fun key => Or.imp_left (hmore key)⟩

theorem append (h : Rooted there es) (hlater : Rooted there later) : Rooted there (es ++ later) := by
  induction es generalizing there with
  | nil => exact hlater
  | cons e es ih =>
    obtain ⟨hne, hparent, hrest⟩ := h
    exact ⟨hne, hparent, ih hrest (hlater.mono fun _ => Or.inl)⟩

theorem below {name : Text} (h : Rooted (fun key => there (name.lower :: key)) es) :
    Rooted there (es.map fun e => (name :: e.1, e.2)) := by
  induction es generalizing there with
  | nil => trivial
  | cons e es ih =>
    obtain ⟨hne, hparent, hrest⟩ := h
    have hname : Path.parent (name :: e.1) = name :: e.1.parent := List.dropLast_cons_of_ne_nil hne
    refine ⟨List.cons_ne_nil _ _, ?_, ih (hrest.mono fun key => Or.imp_right ?_)⟩
    · rw [hname]
      exact hparent
    · rintro ⟨rfl, hdir⟩
      exact ⟨rfl, hdir⟩

theorem ne_nil (h : Rooted there es) {e : Path × Item} (he : e ∈ es) : e.1 ≠ [] := by
  induction es generalizing there with
  | nil => cases he
  | cons first es ih =>
    obtain ⟨hne, _, hrest⟩ := h
    rcases List.mem_cons.mp he with rfl | he
    · exact hne
    · exact ih hrest he

end Rooted

theorem rooted_entries (t : HostTree) {there : Path → Prop} (h : there []) :
    Rooted there t.entries := by
  induction t generalizing there with
  | nil => trivial
  | file name data rest ih => exact ⟨List.cons_ne_nil _ _, h, ih (Or.inl h)⟩
  | directory name inside rest ihinside ihrest =>
    refine ⟨List.cons_ne_nil _ _, h, Rooted.append (Rooted.below (ihinside ?_)) (ihrest (Or.inl h))⟩
    exact Or.inr ⟨rfl, rfl⟩

theorem ne_nil_of_mem {t : HostTree} {e : Path × Item} (he : e ∈ t.entries) : e.1 ≠ [] := by
  have hrooted : Rooted (fun _ => True) t.entries := t.rooted_entries trivial
  exact hrooted.ne_nil he

/-- No file of the tree has the path of one of its directories, up to the case. -/
def Apart (t : HostTree) : Prop := ∀ f ∈ t.files, ∀ d ∈ t.directories, f.1.key ≠ d.key

/-- No two files of the tree have one path, up to the case. -/
def Distinct (t : HostTree) : Prop := (t.files.map fun f => f.1.key).Nodup

instance (t : HostTree) : Decidable t.Apart :=
  inferInstanceAs (Decidable (∀ f ∈ t.files, ∀ d ∈ t.directories, f.1.key ≠ d.key))

instance (t : HostTree) : Decidable t.Distinct :=
  inferInstanceAs (Decidable (t.files.map fun f => f.1.key).Nodup)

theorem apart_iff {t : HostTree} : t.Apart ↔
    ∀ a ∈ t.entries, ∀ b ∈ t.entries, a.1.key = b.1.key → a.2.isDirectory = b.2.isDirectory := by
  constructor
  · intro h
    rintro ⟨path, item⟩ ha ⟨path', item'⟩ hb hkey
    cases item with
    | directory =>
      cases item' with
      | directory => rfl
      | file data =>
        exact absurd hkey.symm (h (path', data) (mem_files.mpr hb) path (mem_directories.mpr ha))
    | file data =>
      cases item' with
      | directory =>
        exact absurd hkey (h (path, data) (mem_files.mpr ha) path' (mem_directories.mpr hb))
      | file data' => rfl
  · intro h f hf d hd hkey
    cases h _ (mem_files.mp hf) _ (mem_directories.mp hd) hkey

namespace Apart

variable {t : HostTree}

/-- What is found at a key is of the kind of all that was listed there. -/
theorem item? (h : t.Apart) {e : Path × Item} (he : e ∈ t.entries) :
    ∃ item, t.item? e.1.key = some item ∧ item.isDirectory = e.2.isDirectory := by
  obtain ⟨item, hitem⟩ := exists_lastAt he
  obtain ⟨e', he', hkey, rfl⟩ := lastAt_eq_some hitem
  exact ⟨e'.2, hitem, apart_iff.mp h e' he' e he hkey⟩

theorem item?_directory (h : t.Apart) {d : Path} (hd : d ∈ t.directories) :
    t.item? d.key = some .directory := by
  obtain ⟨item, hitem, hkind⟩ := h.item? (mem_directories.mp hd)
  cases item with
  | directory => exact hitem
  | file data => cases hkind

theorem item?_file (h : t.Apart) {f : Path × List UInt8} (hf : f ∈ t.files) :
    ∃ data, t.item? f.1.key = some (.file data) := by
  obtain ⟨item, hitem, hkind⟩ := h.item? (mem_files.mp hf)
  cases item with
  | directory => cases hkind
  | file data => exact ⟨data, hitem⟩

end Apart

/-- What is found at a key was listed there. -/
theorem listed_of_item? {t : HostTree} {key : Path} {item : Item} (h : t.item? key = some item) :
    ∃ e ∈ t.entries, e.1.key = key ∧ e.2 = item := lastAt_eq_some h

/-- Where no two files have one path, each is found with its own bytes. -/
theorem Distinct.item? {t : HostTree} (h : t.Distinct) (hs : t.Apart) {f : Path × List UInt8}
    (hf : f ∈ t.files) : t.item? f.1.key = some (.file f.2) := by
  obtain ⟨data, hdata⟩ := hs.item?_file hf
  obtain ⟨e, he, hkey, hitem⟩ := listed_of_item? hdata
  have hmem : (e.1, data) ∈ t.files := mem_files.mpr (hitem ▸ he)
  have hsame : (e.1, data) = f := List.inj_on_of_nodup_map h hmem hf hkey
  rw [hdata, ← hsame]

/-- The entries of two listings of one directory, one behind the other. -/
def append : HostTree → HostTree → HostTree
  | nil, t => t
  | file name data rest, t => file name data (rest.append t)
  | directory name inside rest, t => directory name inside (rest.append t)

/-- The host lists the entries of its directories in any order. -/
inductive Relisted : HostTree → HostTree → Prop
  | refl (t : HostTree) : Relisted t t
  | file (name : Text) (data : List UInt8) {rest rest' : HostTree} (later : Relisted rest rest') :
    Relisted (.file name data rest) (.file name data rest')
  | directory (name : Text) {inside inside' rest rest' : HostTree} (below : Relisted inside inside')
    (later : Relisted rest rest') : Relisted (.directory name inside rest) (.directory name inside' rest')
  | swap (s t : HostTree) : Relisted (s.append t) (t.append s)
  | trans {s t u : HostTree} (first : Relisted s t) (second : Relisted t u) : Relisted s u

theorem entries_append (s t : HostTree) : (s.append t).entries = s.entries ++ t.entries := by
  induction s with
  | nil => rfl
  | file name data rest ih => rw [append, entries, ih, entries, List.cons_append]
  | directory name inside rest _ ih =>
    rw [append, entries, ih, entries, List.append_assoc]

namespace Relisted

variable {s t : HostTree}

theorem entries (h : Relisted s t) : s.entries.Perm t.entries := by
  induction h with
  | refl t => exact .refl _
  | file name data _ ih => exact ih.cons _
  | directory name _ _ ihbelow ihlater => exact ((ihbelow.map _).append ihlater).cons _
  | swap s t =>
    rw [entries_append, entries_append]
    exact List.perm_append_comm
  | trans _ _ ihfirst ihsecond => exact ihfirst.trans ihsecond

theorem files (h : Relisted s t) : s.files.Perm t.files := h.entries.filterMap _

theorem accepted (h : Relisted s t) (hs : s.Accepted) : t.Accepted :=
  fun e he => hs e (h.entries.mem_iff.mpr he)

theorem apart (h : Relisted s t) (hs : s.Apart) : t.Apart := by
  rw [apart_iff] at hs ⊢
  exact fun a ha b hb => hs a (h.entries.mem_iff.mpr ha) b (h.entries.mem_iff.mpr hb)

/-- The kinds of what is found do not depend on the order. -/
theorem kind (h : Relisted s t) (hs : s.Apart) (key : Path) :
    (t.item? key).map Item.isDirectory = (s.item? key).map Item.isDirectory := by
  cases ht : t.item? key with
  | some item =>
    obtain ⟨e, he, rfl, rfl⟩ := listed_of_item? ht
    obtain ⟨item, hitem, hkind⟩ := hs.item? (h.entries.mem_iff.mpr he)
    rw [hitem, Option.map_some, Option.map_some, hkind]
  | none =>
    cases hi : s.item? key with
    | none => rfl
    | some item =>
      obtain ⟨e, he, rfl, rfl⟩ := listed_of_item? hi
      obtain ⟨item, hitem, _⟩ := (h.apart hs).item? (h.entries.mem_iff.mp he)
      rw [ht] at hitem
      cases hitem

/-- Where no two files have one path, nor does what is found. -/
theorem item? (h : Relisted s t) (hs : s.Apart) (hd : s.Distinct) (key : Path) :
    t.item? key = s.item? key := by
  have hkind := h.kind hs key
  cases ht : t.item? key with
  | none =>
    rw [ht] at hkind
    exact (Option.map_eq_none_iff.mp hkind.symm).symm
  | some item =>
    obtain ⟨⟨path, item⟩, he, rfl, rfl⟩ := listed_of_item? ht
    have he' := h.entries.mem_iff.mpr he
    cases item with
    | directory => exact (hs.item?_directory (mem_directories.mpr he')).symm
    | file data =>
      have hf : (path, data) ∈ s.files := mem_files.mpr he'
      exact (hd.item? hs hf).symm

end Relisted

end HostTree

end CardShell
