import CardShell.Proofs.Shell.Sorted

/-!
Listings with every heap. On a card that does not fail the heap decides neither whether a directory is
listed nor which entries are shown, unless one of them cannot be shown in order.
-/

set_option autoImplicit false

namespace CardShell.Shell

open CardShell.Action Listing

/-- With every heap, however small and whenever it refuses: the listing fails, and with the same
error, where the directory does not open, and otherwise prints each of the entries asked for once. But
where the brief form takes a field that is too wide the machine may stop, and it does with room on the
heap for all of the listing. -/
theorem list_with_every_heap (name : Text) (ops : List Volume.Operation) (m : Machine)
    (hf : m.drive.faults = []) (hv : m.drive.volume = (Volume.labelled name).runAll ops)
    (path : Text) (long : Bool) :
    let target := PathText.split path
    match m.drive.volume.entriesOf (PathText.toOpen target.directory) with
    | .error e => ∀ heap, ∃ m', list path long { m with heap := heap } = .error (.failed e) m'
    | .ok es =>
      let shown := es.filter (Entry.fits target.pattern?)
      (es.map fun e => e.name.lower).Nodup ∧
      (∀ heap, (∃ m' bs, list path long { m with heap := heap } = .ok () m' ∧
          m'.console.output = m.console.output ++ bs ∧
          Printout m.drive.volume.label (nameShown m.directory target.directory target.pattern?) long
            shown bs) ∨
        long = false ∧ ¬ Printable m.console.columns shown ∧
          ∃ m', list path long { m with heap := heap } = .error (.stopped .tooWide) m') ∧
      (long = false → ¬ Printable m.console.columns shown → ∀ heap, Roomy target.parts shown heap →
        ∃ m', list path long { m with heap := heap } = .error (.stopped .tooWide) m') := by
  intro target
  have hw : m.drive.volume.WellFormed := hv ▸ (Volume.wellFormed_labelled name).runAll ops
  cases he : m.drive.volume.entriesOf (PathText.toOpen target.directory) with
  | error e => exact fun heap => list_error (m := { m with heap := heap }) path long hf he
  | ok es =>
    obtain ⟨key, rfl⟩ := Volume.entriesOf_ok he
    refine ⟨Volume.nodup_children hw key, fun heap => ?_, fun hlong hwide heap hroom => ?_⟩
    · rcases list_lists (m := { m with heap := heap }) path long hf he
        fun e he => (Volume.isName_of_mem_children hw he).not_mem_of_isControl (by decide) with
        ⟨m', bs, hrun, hbs, hprintout⟩ | hstops
      · exact Or.inl ⟨m', bs, hrun, hbs.output, hprintout⟩
      · exact Or.inr hstops
    · exact (list_inOrder (m := { m with heap := heap }) path hf he hroom long).stops hlong hwide

/-- The matches of a pattern in a directory that holds another file too. -/
theorem list_matches_with_every_heap :
    let ops : List Volume.Operation :=
      [.makeDirectory "/d", .writeFile "/d/a.bin" [1], .writeFile "/d/b.txt" []]
    let m := Machine.boot {} ((Volume.labelled []).runAll ops) [] {} (.hosted 0 0) .absent
    m.drive.faults = [] ∧
    ∀ heap, ∃ m' bs, list "/d/*.bin" false { m with heap := heap } = .ok () m' ∧
      m'.console.output = m.console.output ++ bs ∧
      Printout [] "/d/" false [⟨"a.bin", 1, {}, ⟨Attributes.archiveBit⟩⟩] bs := by
  intro ops m
  have htarget : PathText.split "/d/*.bin" = .matching "/d" "*.bin" := by decide +kernel
  have hes : m.drive.volume.entriesOf (PathText.toOpen "/d") =
      .ok [⟨"a.bin", 1, {}, ⟨Attributes.archiveBit⟩⟩, ⟨"b.txt", 0, {}, ⟨Attributes.archiveBit⟩⟩] := by
    cbv
  have h := list_with_every_heap [] ops m rfl rfl "/d/*.bin" false
  simp only [htarget, PathText.Target.directory, hes] at h
  refine ⟨rfl, fun heap => ?_⟩
  rcases h.2.1 heap with hlisted | ⟨_, hwide, _⟩
  · exact hlisted
  · exact absurd (by decide +kernel) hwide

/-- On an empty card, with all of the heap and with the first block refused. -/
theorem notice_left_out :
    let m := Machine.boot {} (.labelled []) [] {} (.hosted 0 0) .absent
    let output (heap : Heap) : Option (List UInt8) :=
      match list "." true { m with heap := heap } with
      | .ok _ m' => some m'.console.output
      | .error _ _ => none
    m.drive.faults = [] ∧
    output m.heap =
      some (Text.bytes "Volume: <No Volume Label>\r\nDirectory: /\r\n\r\nNo files found\r\n") ∧
    output (m.heap.failAfter 0) = some (Text.bytes "Volume: <No Volume Label>\r\n\r\n") := by
  decide +kernel

end CardShell.Shell
