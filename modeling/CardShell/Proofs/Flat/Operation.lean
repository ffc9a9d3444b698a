import CardShell.Proofs.Flat.Renamed

/-!
Runs of operations on the map. Each operation answers what it answers on the tree, whatever has been
done before, and what fits together in the tree fits together in the map.
-/

set_option autoImplicit false

namespace CardShell

namespace Action

variable {ι ε σ α : Type}

/-- What `x` gives from a state, or the error it ends in. -/
def result (x : Action ε σ α) (s : σ) : Except ε α :=
  match x s with
  | .ok a _ => .ok a
  | .error e _ => .error e

/-- The results of one action after the other, each from where the one before has ended. -/
def results (x : ι → Action ε σ α) : List ι → σ → List (Except ε α)
  | [], _ => []
  | i :: is, s => (x i).result s :: results x is ((x i).after s)

end Action

/-- What an operation of a volume gives back: a handle or a count, bytes, or an entry. -/
inductive Reply
  | done
  | number (n : Nat)
  | bytes (bs : List UInt8)
  | entry (e : Option Entry)
  deriving DecidableEq, Repr

namespace Volume

open Action

def Operation.answer : Operation → VolumeAction Reply
  | relabel label => do modify fun v => { v with label := label }; return .done
  | restamp stamp => do modify fun v => { v with stamp := stamp }; return .done
  | mount => do modify Volume.mount; return .done
  | changeDirectory typed => do Volume.changeDirectory typed; return .done
  | makeDirectory typed => do Volume.makeDirectory typed; return .done
  | makeDirectories typed => do Volume.makeDirectories typed; return .done
  | unlink typed => do Volume.unlink typed; return .done
  | rename source target => do Volume.rename source target; return .done
  | setAttributes typed bits => do Volume.setAttributes typed bits; return .done
  | writeFile typed data => do Volume.writeFile typed data; return .done
  | openFile typed mode => return .number (← Volume.openFile typed mode)
  | closeFile h => do Volume.closeFile h; return .done
  | read h count => return .bytes (← Volume.read h count)
  | write h bytes => return .number (← Volume.write h bytes)
  | seek h offset => do Volume.seek h offset; return .done
  | openListing typed => return .number (← Volume.openListing typed)
  | readListing h => return .entry (← Volume.readListing h)
  | closeListing h => do Volume.closeListing h; return .done

theorem after_answer (op : Operation) (v : Volume) : op.answer.after v = op.run v := by
  cases op
  case relabel | restamp | mount => rfl
  all_goals exact after_bind_pure _ _ v

end Volume

namespace FlatVolume

open Action Path Volume

def answer : Operation → FlatAction Reply
  | .relabel label => do modify fun c => { c with label := label }; return .done
  | .restamp stamp => do modify fun c => { c with stamp := stamp }; return .done
  | .mount => do modify mount; return .done
  | .changeDirectory typed => do changeDirectory typed; return .done
  | .makeDirectory typed => do makeDirectory typed; return .done
  | .makeDirectories typed => do makeDirectories typed; return .done
  | .unlink typed => do unlink typed; return .done
  | .rename source target => do rename source target; return .done
  | .setAttributes typed bits => do setAttributes typed bits; return .done
  | .writeFile typed data => do writeFile typed data; return .done
  | .openFile typed mode => return .number (← openFile typed mode)
  | .closeFile h => do closeFile h; return .done
  | .read h count => return .bytes (← read h count)
  | .write h bytes => return .number (← write h bytes)
  | .seek h offset => do seek h offset; return .done
  | .openListing typed => return .number (← openListing typed)
  | .readListing h => return .entry (← readListing h)
  | .closeListing h => do closeListing h; return .done

def runAll (c : FlatVolume) (ops : List Operation) : FlatVolume :=
  ops.foldl (fun c op => (answer op).after c) c

variable {c : FlatVolume} {v : Volume}

theorem Follows.reply {α : Type} {x : FlatAction α} {y : VolumeAction α} (h : Follows x y)
    (f : α → Reply) : Follows (x >>= fun a => pure (f a)) (y >>= fun a => pure (f a)) :=
  fun c v hc hv => (h c v hc hv).bind fun _ _ _ _ hd => ⟨rfl, hd⟩

/-- Every operation follows the tree. -/
theorem follows_answer (op : Operation) : Follows (answer op) op.answer := by
  cases op with
  | relabel label => exact fun c v h _ => ⟨rfl, { h with label := rfl }⟩
  | restamp stamp => exact fun c v h _ => ⟨rfl, { h with stamp := rfl }⟩
  | mount => exact fun c v h _ => ⟨rfl, h.mount⟩
  | changeDirectory typed => exact (follows_changeDirectory typed).reply _
  | makeDirectory typed => exact (follows_makeDirectory typed).reply _
  | makeDirectories typed => exact (follows_makeDirectories typed).reply _
  | unlink typed => exact (follows_unlink typed).reply _
  | rename source target => exact (follows_rename source target).reply _
  | setAttributes typed bits => exact (follows_setAttributes typed bits).reply _
  | writeFile typed data => exact (follows_writeFile typed data).reply _
  | openFile typed mode => exact (follows_openFile typed mode).reply _
  | closeFile h => exact (follows_closeFile h).reply _
  | read h count => exact (follows_read h count).reply _
  | write h bytes => exact (follows_write h bytes).reply _
  | seek h offset => exact (follows_seek h offset).reply _
  | openListing typed => exact (follows_openListing typed).reply _
  | readListing h => exact (follows_readListing h).reply _
  | closeListing h => exact (follows_closeListing h).reply _

theorem Same.result {α : Type} {x : FlatAction α} {y : VolumeAction α} (h : Same (x c) (y v)) :
    x.result c = (y.result v).mapError Halt.failed ∧ (x.after c).Holds (y.after v) := by
  unfold Action.result Action.after
  cases hx : x c <;> cases hy : y v
  all_goals rw [hx, hy] at h
  · exact ⟨congrArg Except.ok h.1, h.2⟩
  · exact h.elim
  · exact h.elim
  · exact ⟨congrArg Except.error h.1, h.2⟩

/-- So does every run of operations: it gives the same answers, and in the end the map holds what the
tree holds. -/
theorem Holds.runAll (h : c.Holds v) (hv : v.WellFormed) (ops : List Operation) :
    results answer ops c = (results Operation.answer ops v).map (Except.mapError Halt.failed) ∧
      (c.runAll ops).Holds (v.runAll ops) := by
  induction ops generalizing c v with
  | nil => exact ⟨rfl, h⟩
  | cons op ops ih =>
    obtain ⟨hresult, hafter⟩ := (follows_answer op c v h hv).result
    rw [after_answer] at hafter
    obtain ⟨hresults, hrun⟩ := ih hafter (hv.run op)
    refine ⟨?_, hrun⟩
    rw [results, results, List.map_cons, hresult, hresults, after_answer]

/-- A path that is stored is never cut off a boundary. -/
theorem results_ne_stopped (label : Text) (ops : List Operation)
    (r : Except Halt Reply) (hr : r ∈ results answer ops (labelled label)) (why : Stop) :
    r ≠ .error (.stopped why) := by
  rw [((holds_labelled label).runAll (wellFormed_labelled label) ops).1] at hr
  obtain ⟨r', _, rfl⟩ := List.mem_map.mp hr
  cases r' <;> nofun

theorem holds_of_operations (label : Text) (ops : List Operation) :
    ((labelled label).runAll ops).Holds ((Volume.labelled label).runAll ops) :=
  ((holds_labelled label).runAll (wellFormed_labelled label) ops).2

theorem Holds.stat (h : c.Holds v) (hv : v.WellFormed) (typed : Text) :
    c.stat typed = Halt.ofExcept (v.stat typed) := by
  unfold FlatVolume.stat Volume.stat
  rw [h.find hv]
  cases hfind : v.find typed with
  | error e => rfl
  | ok r =>
    obtain ⟨key, n⟩ := r
    obtain ⟨p, _, rfl, hn⟩ := find_ok hfind
    exact Holds.entry (hv.named_path hn)

/-- What ties the nodes, the current directory and the open files of a volume together, said of the one
map of whole paths. -/
structure WellFormed (c : FlatVolume) : Prop where
  root : ∃ r : FlatNode, c.nodes[['/']]? = some r ∧ r.isDirectory = true
  key_path : ∀ {k : Text} {n : FlatNode}, c.nodes[k]? = some n → n.path.lower = k
  parent : ∀ {k : Text} {n : FlatNode}, c.nodes[k]? = some n → k ≠ ['/'] →
    ∃ (d : FlatNode) (name : Text), c.nodes[d.path.lower]? = some d ∧ d.isDirectory = true ∧
      IsName name ∧ n.path = join d.path name
  order_lt : ∀ {k : Text} {n : FlatNode}, c.nodes[k]? = some n → n.order < c.nextOrder
  order_inj : ∀ {k k' : Text} {n n' : FlatNode}, c.nodes[k]? = some n → c.nodes[k']? = some n' →
    n.order = n'.order → k = k'
  directory : ∃ d : FlatNode, c.nodes[c.directory.lower]? = some d ∧ d.isDirectory = true ∧
    d.path = c.directory
  files : ∀ f ∈ c.files, ∃ n : FlatNode, c.nodes[f.2.key]? = some n ∧ n.isDirectory = false

theorem Holds.node (h : c.Holds v) (hv : v.WellFormed) {key : Path} {n : Node}
    (hn : v.node? key = some n) : c.nodes[key.text]? = some n.flat := by
  rw [h.nodes (hv.named_key hn), hn]
  rfl

theorem Holds.wellFormed (h : c.Holds v) (hv : v.WellFormed) : c.WellFormed where
  root := ⟨v.root.flat, h.node hv (node?_nil v), hv.root_isDirectory⟩
  key_path hk := by
    obtain ⟨q, n, _, rfl, hn, rfl⟩ := h.node_of_get? hk
    rw [Node.flat_path, text_lower, hv.key_path hn]
  parent {k m} hk hroot := by
    obtain ⟨q, n, hq, rfl, hn, rfl⟩ := h.node_of_get? hk
    obtain ⟨d, name, hd, hdir, hname, hpath⟩ :=
      hv.parent hn (mt (text_eq_separator_iff hq).mpr hroot)
    refine ⟨d.flat, name, ?_, hdir, hname, ?_⟩
    · rw [Node.flat_path, text_lower, hv.key_path hd, h.node hv hd]
    · rw [Node.flat_path, Node.flat_path, hpath, join_text (hv.named_path hd)]
  order_lt hk := by
    obtain ⟨q, n, _, _, hn, rfl⟩ := h.node_of_get? hk
    rw [h.nextOrder]
    exact hv.order_lt hn
  order_inj hk hk' he := by
    obtain ⟨q, n, _, rfl, hn, rfl⟩ := h.node_of_get? hk
    obtain ⟨q', n', _, rfl, hn', rfl⟩ := h.node_of_get? hk'
    rw [hv.order_inj hn hn' he]
  directory := by
    obtain ⟨d, hd, hdir, hpath⟩ := hv.directory
    refine ⟨d.flat, ?_, hdir, ?_⟩
    · rw [h.directory, text_lower, h.node hv hd]
    · rw [Node.flat_path, hpath, h.directory]
  files f hf := by
    rw [h.files] at hf
    obtain ⟨g, hg, rfl⟩ := List.mem_map.mp hf
    obtain ⟨n, hn, hfile⟩ := hv.files g hg
    exact ⟨n.flat, h.node hv hn, hfile⟩

end FlatVolume

namespace Volume

open Action

/-- Whatever operations a fresh volume has been through, successful or not, the entries of its one map,
its current directory and its open files fit together. No operation was stopped by a cut inside a
character, each has answered what it answers on the tree, and the map holds the tree's nodes under the
lower-case forms of their paths. -/
theorem wellFormed_of_operations (label : Text) (ops : List Operation) :
    let c := (FlatVolume.labelled label).runAll ops
    let v := (labelled label).runAll ops
    c.WellFormed ∧
    results FlatVolume.answer ops (FlatVolume.labelled label) =
      (results Operation.answer ops (labelled label)).map (Except.mapError Halt.failed) ∧
    c.Holds v ∧ v.WellFormed ∧
    ∀ key n, v.node? key = some n → key.text = Text.lower n.path.text := by
  intro c v
  have hv : v.WellFormed := (wellFormed_labelled label).runAll ops
  obtain ⟨hresults, hholds⟩ :=
    (FlatVolume.holds_labelled label).runAll (wellFormed_labelled label) ops
  refine ⟨hholds.wellFormed hv, hresults, hholds, hv, fun key n hn => ?_⟩
  rw [← Path.text_key, hv.key_path hn]

end Volume

end CardShell
