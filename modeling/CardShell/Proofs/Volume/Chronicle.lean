import CardShell.Proofs.Volume.Children
import CardShell.Proofs.Volume.Written

/-!
The order of entries. A chronicle goes along with a run of operations: the keys of all entries below the
root, in the order in which each entry was made or last renamed itself. What is moved along with a
directory keeps its place in it. A directory lists its entries in the order of the chronicle.
-/

set_option autoImplicit false

namespace CardShell.Volume

open CardShell.Action

variable {v w : Volume} {key p new : Path} {n : Node} {ns : List Node} {keys : List Path}

section Chronicle

/-- Where a path leads; the root if it does not resolve. -/
def goal (v : Volume) (typed : Text) : Path := (v.resolve typed).toOption.getD []

def Operation.succeeds (op : Operation) (v : Volume) : Bool :=
  match op.perform v with
  | .ok _ _ => true
  | .error _ _ => false

/-- The chronicle after an operation. New entries come last, from the top down, and so does the entry
that a rename moves; what lies below that entry goes along in its place. -/
def Operation.record (op : Operation) (v : Volume) (keys : List Path) : List Path :=
  if op.succeeds v then
    match op with
    | .makeDirectory typed | .makeDirectories typed | .writeFile typed _ | .openFile typed _ =>
      keys ++ v.gaps (v.goal typed)
    | .unlink typed => keys.filter (· ≠ (v.goal typed).key)
    | .rename source target =>
      (keys.filter (· ≠ (v.goal source).key)).map
        (Movable.landing (v.goal source).key (v.goal target).key) ++ [(v.goal target).key]
    | _ => keys
  else keys

/-- The chronicle after a run that began with `keys`. -/
def chronicle (v : Volume) (keys : List Path) : List Operation → List Path
  | [] => keys
  | op :: ops => chronicle (op.run v) (op.record v keys) ops

theorem goal_of_resolve {typed : Text} (h : v.resolve typed = .ok p) : v.goal typed = p := by
  rw [goal, h]
  rfl

theorem succeeds_of_ok {op : Operation} (hx : op.perform v = .ok () w) : op.succeeds v = true := by
  rw [Operation.succeeds, hx]

theorem record_of_error {op : Operation} {e : Error} (hx : op.perform v = .error e w) :
    op.record v keys = keys := by
  have hfails : op.succeeds v = false := by rw [Operation.succeeds, hx]
  unfold Operation.record
  rw [hfails]
  exact if_neg Bool.false_ne_true

end Chronicle

section Coming

/-- The entries at these keys came to their places one after the other. -/
def Rising (v : Volume) (keys : List Path) : Prop :=
  keys.Pairwise fun k l => ∀ a b, v.node? k = some a → v.node? l = some b → a.order < b.order

namespace Rising

/-- Entries that are found elsewhere but have kept their order. -/
theorem carried {f : Path → Path} (h : Rising v keys)
    (hf : ∀ k ∈ keys, ∃ a m, v.node? k = some a ∧ w.node? (f k) = some m ∧ m.order = a.order) :
    Rising w (keys.map f) := by
  refine List.pairwise_map.mpr (h.imp_of_mem fun {k l} hk hl hlt a b ha hb => ?_)
  obtain ⟨a', m, ha', hm, horder⟩ := hf k hk
  obtain ⟨b', m', hb', hm', horder'⟩ := hf l hl
  rw [hm] at ha
  rw [hm'] at hb
  cases ha
  cases hb
  rw [horder, horder']
  exact hlt a' b' ha' hb'

theorem append {later : List Path} (h : Rising v keys) (h' : Rising v later) (bound : Nat)
    (hkeys : ∀ k ∈ keys, ∃ a, v.node? k = some a ∧ a.order < bound)
    (hlater : ∀ k ∈ later, ∃ a, v.node? k = some a ∧ bound ≤ a.order) : Rising v (keys ++ later) := by
  refine List.pairwise_append.mpr ⟨h, h', fun k hk l hl a b ha hb => ?_⟩
  obtain ⟨a', ha', hlt⟩ := hkeys k hk
  obtain ⟨b', hb', hle⟩ := hlater l hl
  rw [ha'] at ha
  rw [hb'] at hb
  cases ha
  cases hb
  exact Nat.lt_of_lt_of_le hlt hle

/-- No entry is there twice. -/
theorem nodup (h : Rising v keys) (hkeys : ∀ k ∈ keys, (v.node? k).isSome = true) : keys.Nodup := by
  refine List.Pairwise.imp_of_mem (fun {k l} hk _ hlt he => ?_) h
  obtain ⟨a, ha⟩ := Option.isSome_iff_exists.mp (hkeys k hk)
  exact Nat.lt_irrefl _ (hlt a a ha (he ▸ ha))

end Rising

/-- `keys` are those of all entries below the root, in the order of their coming to their places. -/
structure Chronicled (v : Volume) (keys : List Path) : Prop where
  mem_iff : ∀ key, key ∈ keys ↔ key ≠ [] ∧ (v.node? key).isSome = true
  rising : Rising v keys

namespace Chronicled

theorem fresh (label : Text) : Chronicled (labelled label) [] := by
  refine ⟨fun key => ?_, List.Pairwise.nil⟩
  cases key with
  | nil => simp
  | cons c key => simp [node?, labelled]

theorem node (h : Chronicled v keys) {k : Path} (hk : k ∈ keys) :
    k ≠ [] ∧ ∃ a, v.node? k = some a :=
  ⟨((h.mem_iff k).mp hk).1, Option.isSome_iff_exists.mp ((h.mem_iff k).mp hk).2⟩

/-- No entry is in the chronicle twice. -/
theorem nodup (h : Chronicled v keys) : keys.Nodup :=
  h.rising.nodup fun k hk => ((h.mem_iff k).mp hk).2

theorem of_shapeAt (h : Chronicled v keys) (hs : ∀ q, w.shapeAt q = v.shapeAt q) :
    Chronicled w keys := by
  constructor
  · intro key
    have hsome := congrArg Option.isSome (hs key)
    simp only [shapeAt, Option.isSome_map] at hsome
    rw [h.mem_iff, hsome]
  · rw [← List.map_id keys]
    refine h.rising.carried fun k hk => ?_
    obtain ⟨_, a, ha⟩ := h.node hk
    obtain ⟨m, hm, _, _, horder⟩ := node?_of_shapeAt (hs k).symm ha
    exact ⟨a, m, ha, hm, horder⟩

theorem entered (h : Chronicled v keys) (hv : v.WellFormed) (hns : Entered v ns w) :
    Chronicled w (keys ++ ns.map fun n => n.path.key) := by
  constructor
  · intro key
    rw [List.mem_append, h.mem_iff, List.mem_map]
    constructor
    · rintro (⟨hne, hsome⟩ | ⟨n, hn, rfl⟩)
      · obtain ⟨a, ha⟩ := Option.isSome_iff_exists.mp hsome
        exact ⟨hne, Option.isSome_iff_exists.mpr ⟨a, hns.kept ha⟩⟩
      · refine ⟨fun hroot => ?_, Option.isSome_iff_exists.mpr ⟨n, hns.made n hn⟩⟩
        have hfree := hns.free n hn
        rw [hroot] at hfree
        cases hfree
    · rintro ⟨hne, hsome⟩
      obtain ⟨n, hn⟩ := Option.isSome_iff_exists.mp hsome
      rcases hns.old_or_new hn with hwas | ⟨_, hmem, rfl⟩
      · exact Or.inl ⟨hne, Option.isSome_iff_exists.mpr ⟨n, hwas⟩⟩
      · exact Or.inr ⟨n, hmem, rfl⟩
  · have hold : Rising w keys := by
      rw [← List.map_id keys]
      refine h.rising.carried fun k hk => ?_
      obtain ⟨_, a, ha⟩ := h.node hk
      exact ⟨a, a, ha, hns.kept ha, rfl⟩
    have hnew : Rising w (ns.map fun n => n.path.key) := by
      have horders : ns.Pairwise fun m n => m.order < n.order := by
        rw [← List.pairwise_map (f := Node.order) (R := (· < ·)), hns.orders]
        exact List.pairwise_lt_range'
      refine List.pairwise_map.mpr (horders.imp_of_mem fun {m n} hm hn hlt a b ha hb => ?_)
      rw [hns.made m hm] at ha
      rw [hns.made n hn] at hb
      cases ha
      cases hb
      exact hlt
    refine hold.append hnew v.nextOrder ?_ ?_
    · intro k hk
      obtain ⟨_, a, ha⟩ := h.node hk
      exact ⟨a, hns.kept ha, hv.order_lt ha⟩
    · intro k hk
      obtain ⟨n, hn, rfl⟩ := List.mem_map.mp hk
      have horder : n.order ∈ List.range' v.nextOrder ns.length :=
        hns.orders ▸ List.mem_map_of_mem hn
      exact ⟨n, hns.made n hn, (List.mem_range'_1.mp horder).1⟩

theorem erased (h : Chronicled v keys) (hv : v.WellFormed) (hk : key ≠ []) (hn : v.node? key = some n)
    (hempty : n.isDirectory = true → v.hasChildren key = false) :
    Chronicled { v with nodes := v.nodes.erase key } (keys.filter (· ≠ key)) := by
  -- Nothing lies below an entry that is unlinked.
  have hnode : ∀ q, { v with nodes := v.nodes.erase key }.node? q =
      if q = key then none else v.node? q := by
    intro q
    rw [node?_erase v hk]
    by_cases hprefix : key <+: q
    · rw [if_pos hprefix]
      split
      · rfl
      · rename_i hq
        cases hm : v.node? q with
        | none => rfl
        | some m => exact absurd (hv.eq_of_prefix hn hempty hprefix hm) hq
    · rw [if_neg hprefix, if_neg]
      rintro rfl
      exact hprefix (List.prefix_refl _)
  constructor
  · intro q
    rw [List.mem_filter, h.mem_iff, hnode]
    by_cases hq : q = key
    · simp [hq]
    · simp [hq]
  · have hkept : Rising v (keys.filter (· ≠ key)) := h.rising.sublist List.filter_sublist
    rw [← List.map_id (keys.filter _)]
    refine hkept.carried fun k hk => ?_
    obtain ⟨hmem, hne⟩ := List.mem_filter.mp hk
    obtain ⟨_, a, ha⟩ := h.node hmem
    refine ⟨a, a, ha, ?_, rfl⟩
    rw [id_eq, hnode, if_neg (by simpa using hne), ha]

theorem moved (h : Chronicled v keys) (hv : v.WellFormed) (hm : Movable v key n p new) :
    Chronicled (v.moved key n new)
      ((keys.filter (· ≠ key)).map (Movable.landing key p.key) ++ [p.key]) := by
  have hroot := hm.key_ne
  have hself : Movable.landing key p.key key = p.key := by
    rw [Movable.landing, if_pos (List.prefix_refl _), List.drop_length, List.append_nil]
  have hlast : ∃ m, (v.moved key n new).node? p.key = some m ∧ m.order = v.nextOrder := by
    have hnode := hm.carries hv hm.source
    rw [hself, if_pos rfl] at hnode
    exact ⟨_, hnode, rfl⟩
  have hlands : ∀ k ∈ keys.filter (· ≠ key), ∃ a m, v.node? k = some a ∧
      (v.moved key n new).node? (Movable.landing key p.key k) = some m ∧ m.order = a.order := by
    intro k hk
    obtain ⟨hmem, hne⟩ := List.mem_filter.mp hk
    obtain ⟨_, a, ha⟩ := h.node hmem
    have hnode := hm.carries hv ha
    rw [if_neg (by simpa using hne)] at hnode
    refine ⟨a, _, ha, hnode, ?_⟩
    unfold Movable.carried
    split <;> rfl
  constructor
  · intro q
    rw [List.mem_append, List.mem_map, List.mem_singleton]
    constructor
    · rintro (⟨k, hk, rfl⟩ | rfl)
      · obtain ⟨a, m, ha, hm', _⟩ := hlands k hk
        refine ⟨?_, Option.isSome_iff_exists.mpr ⟨m, hm'⟩⟩
        unfold Movable.landing
        split
        · simp [hroot]
        · exact (h.node (List.mem_filter.mp hk).1).1
      · obtain ⟨m, hnode, _⟩ := hlast
        exact ⟨hroot, Option.isSome_iff_exists.mpr ⟨m, hnode⟩⟩
    · rintro ⟨hq, hsome⟩
      obtain ⟨m, hnode⟩ := Option.isSome_iff_exists.mp hsome
      rcases hm.order_origin hv hnode with ⟨rfl, _⟩ | ⟨k, a, ha, _, rfl⟩
      · exact Or.inr rfl
      · by_cases hk : k = key
        · exact Or.inr (hk ▸ hself)
        · refine Or.inl ⟨k, List.mem_filter.mpr ⟨(h.mem_iff k).mpr ⟨?_, ?_⟩, by simpa using hk⟩, rfl⟩
          · rintro rfl
            apply hq
            rw [Movable.landing, if_neg (fun hp => hm.source_ne (List.prefix_nil.mp hp))]
          · exact Option.isSome_iff_exists.mpr ⟨a, ha⟩
  · have hkept : Rising v (keys.filter (· ≠ key)) := h.rising.sublist List.filter_sublist
    refine (hkept.carried hlands).append (List.pairwise_singleton _ _) v.nextOrder ?_ ?_
    · intro q hq
      obtain ⟨k, hk, rfl⟩ := List.mem_map.mp hq
      obtain ⟨a, m, ha, hm', horder⟩ := hlands k hk
      exact ⟨m, hm', horder ▸ hv.order_lt ha⟩
    · intro q hq
      obtain ⟨m, hnode, horder⟩ := hlast
      rw [List.mem_singleton] at hq
      exact ⟨m, hq ▸ hnode, Nat.le_of_eq horder.symm⟩

end Chronicled

end Coming

section OneOperation

/-- Whether an operation can make, remove or move entries. -/
def Operation.rearranges : Operation → Bool
  | makeDirectory _ | makeDirectories _ | unlink _ | rename _ _ | writeFile _ _ | openFile _ _ => true
  | _ => false

theorem shapeAt_setContent (hn : v.node? key = some n) {data data' : Bytes}
    (hc : n.content = .file data) (stamp : Node → Stamp) (q : Path) :
    (v.updateNode key fun n => { n with content := .file data', stamp := stamp n }).shapeAt q =
      v.shapeAt q := by
  refine shapeAt_updateNode v key (fun m hm => ?_) q
  rw [hn] at hm
  cases hm
  exact ⟨rfl, isDirectory_of_file hc _ _, rfl⟩

/-- Any other operation leaves all entries in their places. -/
theorem shapeAt_run {op : Operation} (hop : op.rearranges = false) (v : Volume) (q : Path) :
    (op.run v).shapeAt q = v.shapeAt q := by
  cases hnodes : op.leavesNodes with
  | true => rw [shapeAt, node?_run hnodes, shapeAt]
  | false =>
    cases op with
    | setAttributes typed bits =>
      dsimp only [Operation.run]
      rcases setAttributes_cases typed bits v with ⟨e, hx⟩ | ⟨key, n, _, hx⟩
      · rw [after_error hx]
      · rw [after_ok hx]
        refine shapeAt_updateNode v key ?_ q
        exact fun _ _ => ⟨rfl, rfl, rfl⟩
    | write h bytes =>
      dsimp only [Operation.run]
      rcases write_cases h bytes v with ⟨e, hx⟩ | ⟨f, data, _, _, hd, hx⟩
      · rw [after_error hx]
      · obtain ⟨n, hn, hc⟩ := dataAt_ok hd
        rw [after_ok hx, shapeAt, node?_updateFile]
        exact shapeAt_setContent hn hc (fun _ => v.stamp) q
    | seek h offset =>
      dsimp only [Operation.run]
      rcases seek_cases h offset v with ⟨e, hx⟩ | ⟨f, data, _, hd, ⟨_, _, hx⟩ | ⟨_, hx⟩⟩
      · rw [after_error hx]
      · obtain ⟨n, hn, hc⟩ := dataAt_ok hd
        rw [after_ok hx, shapeAt, node?_updateFile]
        exact shapeAt_setContent hn hc Node.stamp q
      · rw [after_ok hx, shapeAt, node?_updateFile, shapeAt]
    | makeDirectory | makeDirectories | unlink | rename | writeFile | openFile => cases hop
    | _ => cases hnodes

theorem record_of_rearranges {op : Operation} (hop : op.rearranges = false) :
    op.record v keys = keys := by
  cases op with
  | makeDirectory | makeDirectories | unlink | rename | writeFile | openFile => cases hop
  | _ => exact ite_self _

theorem gaps_of_newPath (hv : v.WellFormed) (hn : v.node? p.key = none) (hs : v.newPath p = .ok new) :
    v.gaps p = [p.key] := by
  obtain ⟨d, hd, _⟩ := newPath_ok hs
  rw [gaps_parent hn, gaps_of_some hv hd (List.prefix_refl _), List.nil_append]

theorem shapeAt_of_replaced {data : List UInt8} (h : Replaced v key data w) (q : Path) :
    w.shapeAt q = v.shapeAt q := by
  unfold shapeAt
  by_cases hq : q = key
  · obtain ⟨n, hn, hfile, _, hw⟩ := h.file
    rw [hq, hw, hn, Option.map_some, Option.map_some, hfile]
    rfl
  · rw [h.others q hq]

namespace Chronicled

theorem insert (h : Chronicled v keys) (hv : v.WellFormed) (hn : v.node? p.key = none)
    (hs : v.newPath p = .ok new) (content : Content) :
    Chronicled (v.insert new content) (keys ++ v.gaps p) := by
  obtain ⟨hkey, hns⟩ := entered_insert hv hn hs content
  rw [gaps_of_newPath hv hn hs, ← hkey]
  exact h.entered hv hns

theorem makeDirectory (h : Chronicled v keys) (hv : v.WellFormed) {typed : Text}
    (hx : makeDirectory typed v = .ok () w) : Chronicled w (keys ++ v.gaps (v.goal typed)) := by
  rcases makeDirectory_cases typed v with ⟨e, he⟩ | ⟨p, stored, hp, hn, hs, he⟩
  · rw [he] at hx
    cases hx
  · rw [he] at hx
    cases hx
    rw [goal_of_resolve hp]
    exact h.insert hv hn hs .directory

theorem makeDirectories (h : Chronicled v keys) (hv : v.WellFormed) {typed : Text}
    (hx : makeDirectories typed v = .ok () w) : Chronicled w (keys ++ v.gaps (v.goal typed)) := by
  obtain ⟨p, hp, _, _, ns, hns, hgaps, _⟩ := makeDirectories_entered hv hx
  rw [goal_of_resolve hp, ← hgaps]
  exact h.entered hv hns

theorem openFile (h : Chronicled v keys) (hv : v.WellFormed) {typed : Text} {mode : OpenMode}
    {number : Nat} (hx : openFile typed mode v = .ok number w) :
    Chronicled w (keys ++ v.gaps (v.goal typed)) := by
  rcases openFile_atomic_cases hv typed mode with ⟨e, he⟩ | ⟨p, t, _, _, hp, ht, _, he⟩
  · rw [he] at hx
    cases hx
  · rw [he] at hx
    cases hx
    rw [goal_of_resolve hp]
    refine of_shapeAt (v := t) ?_ fun _ => rfl
    rcases prepare_cases ht with ⟨n, hn, hfile, _, _, rfl⟩ | ⟨stored, hn, _, hs, rfl⟩
    · rw [gaps_of_some hv hn (List.prefix_refl _), List.append_nil]
      refine h.of_shapeAt fun q => ?_
      split
      · refine shapeAt_updateNode v p.key (fun m hm => ?_) q
        rw [hn] at hm
        cases hm
        exact ⟨rfl, hfile.symm, rfl⟩
      · rfl
    · exact h.insert hv hn hs _

theorem writeFile (h : Chronicled v keys) (hv : v.WellFormed) {typed : Text} {data : List UInt8}
    (hx : writeFile typed data v = .ok () w) : Chronicled w (keys ++ v.gaps (v.goal typed)) := by
  obtain ⟨p, t, hp, _, hwritten, rfl⟩ := writeFile_ok hv hx
  rw [goal_of_resolve hp]
  refine of_shapeAt (v := t) ?_ fun _ => rfl
  rcases hwritten with hreplaced | ⟨ns, stored, order, _, hkey, _, hgaps, hns⟩
  · obtain ⟨n, hn, _⟩ := hreplaced.file
    rw [gaps_of_some hv hn (List.prefix_refl _), List.append_nil]
    exact h.of_shapeAt (shapeAt_of_replaced hreplaced)
  · have hentered := h.entered hv hns
    rw [List.map_append, List.map_singleton, hkey, hgaps] at hentered
    exact hentered

theorem unlink (h : Chronicled v keys) (hv : v.WellFormed) {typed : Text}
    (hx : unlink typed v = .ok () w) : Chronicled w (keys.filter (· ≠ (v.goal typed).key)) := by
  rcases unlink_cases typed v with ⟨e, he⟩ | ⟨key, n, hfind, hk, _, hempty, _, he⟩
  · rw [he] at hx
    cases hx
  · rw [he] at hx
    cases hx
    obtain ⟨p, hp, rfl, hn⟩ := find_ok hfind
    rw [goal_of_resolve hp]
    exact h.erased hv hk hn fun hdir => (hempty hdir).1

theorem rename (h : Chronicled v keys) (hv : v.WellFormed) {source target : Text}
    (hx : rename source target v = .ok () w) :
    Chronicled w ((keys.filter (· ≠ (v.goal source).key)).map
      (Movable.landing (v.goal source).key (v.goal target).key) ++ [(v.goal target).key]) := by
  rcases rename_cases source target v with
    ⟨e, he⟩ | ⟨key, n, p, new, hfind, hk, hp, hfree, hbelow, hopen, hnew, he⟩
  · rw [he] at hx
    cases hx
  · rw [he] at hx
    cases hx
    obtain ⟨q, hq, rfl, hn⟩ := find_ok hfind
    rw [goal_of_resolve hq, goal_of_resolve hp]
    exact h.moved hv ⟨hn, hk, hfree, hbelow, hopen, hnew⟩

/-- The chronicle goes along with every operation, whether it succeeds or fails. -/
theorem step (h : Chronicled v keys) (hv : v.WellFormed) (op : Operation) :
    Chronicled (op.run v) (op.record v keys) := by
  rw [← after_perform]
  rcases atomic_perform hv op with ⟨_, w, hx⟩ | ⟨e, hx⟩
  · cases hop : op.rearranges with
    | false =>
      rw [record_of_rearranges hop, after_perform]
      exact h.of_shapeAt (shapeAt_run hop v)
    | true =>
      unfold Operation.record
      rw [after_ok hx, if_pos (succeeds_of_ok hx)]
      cases op with
      | makeDirectory typed => exact h.makeDirectory hv hx
      | makeDirectories typed => exact h.makeDirectories hv hx
      | unlink typed => exact h.unlink hv hx
      | rename source target => exact h.rename hv hx
      | writeFile typed data => exact h.writeFile hv hx
      | openFile typed mode =>
        obtain ⟨number, hx⟩ := ok_of_discard hx
        exact h.openFile hv hx
      | _ => cases hop
  · rw [after_error hx, record_of_error hx]
    exact h

theorem run (h : Chronicled v keys) (hv : v.WellFormed) (ops : List Operation) :
    Chronicled (v.runAll ops) (v.chronicle keys ops) := by
  induction ops generalizing v keys with
  | nil => exact h
  | cons op ops ih => exact ih (h.step hv op) (hv.run op)

/-- A directory lists its entries in the order of the chronicle. -/
theorem children (h : Chronicled v keys) (hv : v.WellFormed) (key : Path) :
    v.children key =
      ((keys.filter fun k => k.dropLast = key).filterMap v.node?).map Node.entry := by
  rw [Volume.children]
  congr 1
  apply childNodes_eq hv
  · intro n
    simp only [List.mem_filterMap, List.mem_filter, decide_eq_true_eq]
    constructor
    · rintro ⟨k, ⟨hk, rfl⟩, hn⟩
      obtain ⟨hne, _⟩ := h.node hk
      exact ⟨k.getLast hne, by rw [List.dropLast_append_getLast hne, hn]⟩
    · rintro ⟨c, hn⟩
      refine ⟨key ++ [c], ⟨(h.mem_iff _).mpr ⟨by simp, ?_⟩, List.dropLast_concat⟩, hn⟩
      rw [hn]
      rfl
  · refine List.pairwise_filterMap.mpr (h.rising.sublist List.filter_sublist |>.imp ?_)
    intro k l hlt a ha b hb
    exact hlt a b ha hb

end Chronicled

end OneOperation

end CardShell.Volume
