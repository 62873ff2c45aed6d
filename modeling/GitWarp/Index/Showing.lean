import GitWarp.Index.Following

/-!
# What an index shows

The readers of an index see its alive nodes, its edges and the properties of its
alive nodes. A tree can show a state without knowing what dead nodes carry, and
it can take a diff that was made from another state: it is enough that where the
tree and that state differ, the state after is as the tree.
-/
namespace GitWarp

open Js Lib KeyCodec List

variable {V : Type}

variable {s : WarpState V} {t : IndexTree V}

theorem WarpState.Keyed.nodeProperty_eq_none (keyed : s.Keyed) (validNode : ValidId x)
    (invalid : ¬ ValidId k) : s.nodeProperty x k = none := by
  cases found : s.prop.get (encodePropKey x k) with
  | none => simp [nodeProperty, found]
  | some r =>
    rcases keyed.props _ r found with ⟨node, key, validOther, validKey, same⟩ | edgeKey
    · have parts := congrArg (split fieldSeparator) same
      simp only [encodePropKey] at parts same
      rw [split_append_cons _ validNode.separated,
        split_append_cons _ validOther.separated] at parts
      obtain ⟨rfl, -⟩ := List.cons.inj parts
      have tail := append_cancel_left same
      exact absurd ((List.cons.inj tail).2 ▸ validKey) invalid
    · obtain ⟨src, dst, label, key, -, -, -, -, same⟩ := edgeKey
      have flag := isEdgePropKey_encodePropKey k validNode
      rw [same, isEdgePropKey_encodeEdgePropKey] at flag
      cases flag

namespace IndexTree

/-! ### Showing a state -/

structure Shows (t : IndexTree V) (s : WarpState V) : Prop where
  edges : t.Holds {e | e ∈ visibleEdges s}
  alive : ∀ x, t.isAlive x = visibleNode s x
  valid : ∀ x, (t.nodeToGlobal.get x).isSome = true → ValidId x
  sound : t.PropsSound
  props : ∀ x k, visibleNode s x = true → ValidId k → t.property x k = s.nodeProperty x k

/-- The readers answer as the state does: liveness, neighbours in every direction and under
every choice of labels, and the properties of alive nodes. -/
structure Answers (t : IndexTree V) (s : WarpState V) : Prop where
  alive : ∀ x, t.isAlive x = visibleNode s x
  neighbors : ∀ x direction labels,
    t.getNeighbors x direction labels = stateNeighbors s x direction labels
  props : ∀ x, visibleNode s x = true → ∃ bag, t.getNodeProps x = .ok bag ∧
    ∀ k, (bag.bind fun bag => bag.get k) = s.nodeProperty x k

theorem Reflects.shows (reflects : t.Reflects s) : t.Shows s where
  edges := reflects.edges
  alive := reflects.alive
  valid := reflects.valid
  sound := reflects.sound
  props := fun x k visible => reflects.props x k
    (numbered_of_isAlive t ((reflects.alive x).trans visible))

theorem PropsSound.property_eq_none (sound : t.PropsSound) (invalid : ¬ ValidId k) :
    t.property x k = none := by
  cases bag : t.props.get x with
  | none => simp [property, bag]
  | some found =>
    by_contra held
    apply invalid
    apply sound.key x found k bag
    rw [Option.isSome_iff_ne_none]
    simpa [property, bag] using held

theorem Shows.property (shows : t.Shows s) (keyed : s.Keyed) (visible : visibleNode s x = true) :
    t.property x k = s.nodeProperty x k := by
  by_cases valid : ValidId k
  · exact shows.props x k visible valid
  · have validNode := shows.valid x (numbered_of_isAlive t ((shows.alive x).trans visible))
    rw [shows.sound.property_eq_none valid, keyed.nodeProperty_eq_none validNode valid]

theorem Shows.answers (shows : t.Shows s) (keyed : s.Keyed) :
    t.Answers s where
  alive := shows.alive
  neighbors := shows.edges.getNeighbors_eq keyed
  props := fun x visible => ⟨_, shows.sound.getNodeProps, fun k => shows.property keyed visible⟩

theorem mem_visibleProps_nodeProperty (keyed : s.Keyed) (validNode : ValidId x)
    (validKey : ValidId k) (visible : visibleNode s x = true) (v : V) :
    ⟨x, k, v⟩ ∈ visibleProps s ↔ s.nodeProperty x k = some v := by
  rw [mem_visibleProps_iff s keyed, WarpState.nodeProperty, Option.map_eq_some_iff]
  exact ⟨fun listed => listed.2.2.2, fun held => ⟨validNode, validKey, visible, held⟩⟩

theorem Shows.congr (shows : t.Shows s) (keyed : s.Keyed) (keyed' : s'.Keyed)
    (nodes : ∀ x, visibleNode s x = visibleNode s' x)
    (edges : ∀ k, visibleEdge s k = visibleEdge s' k)
    (props : ∀ p, p ∈ visibleProps s ↔ p ∈ visibleProps s') : t.Shows s' where
  edges := shows.edges.congr ((visibleEdges_mem_congr s keyed keyed').mpr edges)
  alive := fun x => (shows.alive x).trans (nodes x)
  valid := shows.valid
  sound := shows.sound
  props := by
    intro x k visible validKey
    have here : visibleNode s x = true := (nodes x).trans visible
    have validNode := shows.valid x (numbered_of_isAlive t ((shows.alive x).trans here))
    rw [shows.props x k here validKey]
    apply Option.ext
    intro v
    rw [← mem_visibleProps_nodeProperty keyed validNode validKey here,
      ← mem_visibleProps_nodeProperty keyed' validNode validKey visible]
    exact props ⟨x, k, v⟩

/-! ### Diffs of other states -/

def hasEdge (t : IndexTree V) (e : EdgeParts) : Prop :=
  ⟨e.dst, e.label⟩ ∈ t.getNeighbors e.src .out none

theorem Holds.hasEdge_iff (keyed : s.Keyed) (holds : t.Holds {e | e ∈ visibleEdges s}) :
    t.hasEdge e ↔ e ∈ visibleEdges s := by
  rw [hasEdge, holds.getNeighbors_eq keyed, stateNeighbors, filterByLabels, mem_adjacency]
  constructor
  · rintro ⟨e', listed, src, dst, label⟩
    exact ends_out e' e src dst label ▸ listed
  · exact fun listed => ⟨e, listed, rfl, rfl, rfl⟩

/-- Where the tree and the state before differ, the state after is as the tree, or the change
from the state before says so: a new edge or node, a removed one, a property that changes. -/
structure Bridges (t : IndexTree V) (before after : WarpState V) : Prop where
  nodes : ∀ x, t.isAlive x ≠ visibleNode before x → visibleNode after x = t.isAlive x
  shown : ∀ e ∈ visibleEdges after, t.hasEdge e ∨ edgeStatus (PatchDiff.edgeKey e) before = false ∨
    ∃ x, (x = e.src ∨ x = e.dst) ∧ visibleNode before x = false ∧
      (t.nodeToGlobal.get x).isSome = true
  hidden : ∀ e, t.hasEdge e → e ∉ visibleEdges after →
    (edgeStatus (PatchDiff.edgeKey e) before = true ∧
      edgeStatus (PatchDiff.edgeKey e) after = false) ∨
    ∃ x, (x = e.src ∨ x = e.dst) ∧ visibleNode before x = true ∧ visibleNode after x = false
  props : ∀ x, visibleNode after x = true → ∀ k, ValidId k →
    t.property x k = after.nodeProperty x k ∨ before.nodeProperty x k ≠ after.nodeProperty x k

/-- From a tree that shows the state before only what becomes visible has to be known. -/
theorem Shows.bridges {after} (shows : t.Shows before) (keyed : before.Keyed) (keyed' : after.Keyed)
    (edges : ∀ e ∈ visibleEdges after, e ∉ visibleEdges before →
      edgeStatus (PatchDiff.edgeKey e) before = true →
        ∃ x, (x = e.src ∨ x = e.dst) ∧ visibleNode before x = false ∧
          (t.nodeToGlobal.get x).isSome = true)
    (props : ∀ x, visibleNode after x = true → visibleNode before x = false → ∀ k, ValidId k →
      t.property x k = after.nodeProperty x k ∨ before.nodeProperty x k ≠ after.nodeProperty x k) :
    t.Bridges before after where
  nodes := fun x apart => absurd (shows.alive x) apart
  shown := by
    intro e visible
    by_cases old : e ∈ visibleEdges before
    · exact Or.inl ((shows.edges.hasEdge_iff keyed).mpr old)
    · cases had : edgeStatus (PatchDiff.edgeKey e) before with
      | false => exact Or.inr (Or.inl rfl)
      | true => exact Or.inr (Or.inr (edges e visible old had))
  hidden := fun e has gone =>
    edge_hidden keyed keyed' e ((shows.edges.hasEdge_iff keyed).mp has) gone
  props := by
    intro x visible k valid
    cases seen : visibleNode before x with
    | false => exact props x visible seen k valid
    | true =>
      rw [shows.props x k seen valid]
      exact Classical.em _

variable [StrictEq V]

/-- A diff that covers the change between two states takes a tree that the change bridges to
one that shows the state after. -/
theorem Shows.applyDiff {after} {diff} (shows : t.Shows seen) (keyed : seen.Keyed)
    (keyed' : after.Keyed) (covers : Covers before after diff) (addressed : diff.Addressed)
    (backed : Backed diff.propsChanged after) (defined : before.Defined) (defined' : after.Defined)
    (bridges : t.Bridges before after) (updated : t.applyDiff diff after = .ok t') :
    t'.Shows after := by
  obtain ⟨added, addsOk⟩ : ∃ added, handleNodeAdds diff.nodesAdded t = .ok added := by
    cases adds : handleNodeAdds diff.nodesAdded t with
    | error e =>
      rw [applyDiff_eq, adds] at updated
      cases updated
    | ok added => exact ⟨added, rfl⟩
  have edges : t.EdgesBridge {e | e ∈ visibleEdges seen} before after := by
    refine ⟨fun e mem => ((mem_visibleEdges keyed e).mp mem).1, fun e visible => ?_,
      fun e mem gone => ?_⟩
    · exact (bridges.shown e visible).imp_left (shows.edges.hasEdge_iff keyed).mp
    · exact bridges.hidden e ((shows.edges.hasEdge_iff keyed).mpr mem) gone
  obtain ⟨u, ok, holds, alive, numbers, kept⟩ :=
    nodes_edges_after shows.edges keyed' covers addressed bridges.nodes edges addsOk
  cases ok.symm.trans updated
  obtain ⟨props, onlyProps⟩ := foldl_addProperty u
  have sound := PropsSound.foldl PropDiffEntry.value u (by
      obtain ⟨node, key, filled⟩ := shows.sound
      constructor <;> rw [kept] <;> assumption)
    fun p mem => ⟨⟨(addressed.propsChanged p mem).named, (backed p mem).1,
      (addressed.propsChanged p mem).node (backed p mem).1⟩,
      (addressed.propsChanged p mem).keyed⟩
  have read := property_after covers addressed backed defined defined' u
  rw [handleProps, onlyProps] at *
  refine ⟨holds.withProps, alive, fun x present => ?_, sound, fun x k visible valid => ?_⟩
  · rcases (numbers x).mp present with old | new
    · exact shows.valid x old
    · exact covers.named x new
  · apply read x k valid
    have same : u.property x k = t.property x k := by rw [IndexTree.property, IndexTree.property, kept]
    rw [same]
    by_cases changed : before.nodeProperty x k = after.nodeProperty x k
    · rw [changed]
      exact Or.inl ((bridges.props x visible k valid).resolve_right (fun apart => apart changed))
    · exact Or.inr changed

end IndexTree

/-! ### The diff of one patch -/

variable [StrictEq V]

theorem delta_named {c : CanonicalOp V} (s) : ∀ x ∈ (c.op.delta s e).nodesAdded, ValidId x := by
  obtain ⟨op, checked⟩ := c
  intro x mem
  have silent : ∀ property : op.isProperty = true, ValidId x := by
    intro property
    obtain ⟨props, shape⟩ := (delta_property op s e property).1
    rw [shape] at mem
    cases mem
  cases op with
  | nodeAdd node dot =>
    simp only [Op.check, check_then_eq_ok, assertNonEmptyString_ok, assertNoReservedBytes_ok]
      at checked
    rw [delta_nodeAdd] at mem
    dsimp only at mem
    split at mem
    · cases mem_singleton.mp mem
      exact ⟨checked.1, checked.2.1, checked.2.2⟩
    · cases mem
  | edgeAdd src dst label dot =>
    rw [delta_edgeAdd] at mem
    cases mem
  | nodeRemove node observedDots | edgeRemove src dst label observedDots => cases mem
  | nodePropSet node key value | edgePropSet src dst label key value | blobValue node oid =>
    exact silent rfl

theorem reportEvents_named (events s) (diff : PatchDiff V)
    (before : ∀ x ∈ diff.nodesAdded, ValidId x) :
    ∀ x ∈ (reportEvents events s diff).nodesAdded, ValidId x := by
  induction events generalizing s diff with
  | nil => exact before
  | cons event rest ih =>
    apply ih
    rw [report_eq_append]
    intro x mem
    rcases mem_append.mp mem with old | new
    · exact before x old
    · exact delta_named s x new

/-- No element that the patch leaves alive is removed on the way. -/
structure PatchEntry.Steady (entry : PatchEntry V) (s : WarpState V) : Prop where
  nodes : ∀ x, nodeStatus x (entry.step s) = true →
    falls (nodeStatus x s) (trace (nodeStatus x) s entry.events) = 0
  edges : ∀ k, edgeStatus k (entry.step s) = true →
    falls (edgeStatus k s) (trace (edgeStatus k) s entry.events) = 0

/-- What the reports of a steady patch say, as they are applied: additions before removals. -/
theorem applyWithDiff_reports (s : WarpState V) (keyed : s.Keyed) (valid : entry.WellFormed)
    (unique : OneElementPerDot (s.facts ∪ historyFacts [entry])) (steady : entry.Steady s)
    (edgeValues : EdgeValuesKept s entry.events) :
    ∃ diff, applyWithDiff s entry = .ok (entry.step s, diff) ∧
      IndexTree.Covers s (entry.step s) diff ∧ diff.Addressed ∧
      Backed diff.propsChanged (entry.step s) := by
  obtain ⟨effect, found⟩ := valid.effect_ok
  have listed := PatchEntry.events_eq found
  have stepped := PatchEntry.step_eq (s := s) found
  have within := unique.within found
  have addressed := reportEvents_addressed s .empty within keyed.addressed
    addressed_empty
  obtain ⟨steadyNodes, steadyEdges⟩ := steady
  rw [listed] at edgeValues
  simp only [listed, stepped] at steadyNodes steadyEdges ⊢
  -- rises and falls are counted by the reports
  have ends : ∀ status : WarpState V → Bool,
      settle (status s) (trace status s effect.events) = status (applyEvents s effect.events) :=
    fun status => settle_trace status s
  refine ⟨reportEvents effect.events s .empty, ?_, ⟨fun x => ?_, fun k => ?_, ?_, ?_⟩, addressed, ?_⟩
  · rw [applyWithDiff_eq found, addressed.create_ok]
    rfl
  · obtain ⟨up, down⟩ := reportEvents_nodes s .empty within
    simp only [PatchDiff.empty, count_nil, Nat.zero_add] at up down
    have change := settle_iff_of_steady
      (fun alive => steadyNodes x ((ends (nodeStatus x)).symm.trans alive))
    rw [ends (nodeStatus x), ← up, ← down, count_pos_iff, count_pos_iff] at change
    exact change
  · obtain ⟨up, down⟩ := reportEvents_edges s .empty within keyed.addressed
    simp only [PatchDiff.empty, map_nil, count_nil, Nat.zero_add] at up down
    have change := settle_iff_of_steady
      (fun alive => steadyEdges k ((ends (edgeStatus k)).symm.trans alive))
    rw [ends (edgeStatus k), ← up, ← down, count_pos_iff, count_pos_iff] at change
    exact change
  · apply reportEvents_named
    intro x none_
    cases none_
  · exact reportEvents_lastValues s s .empty (lastValues_of_prop_eq rfl)
  · apply reportEvents_backed s .empty edgeValues
    intro e none_
    cases none_

end GitWarp
