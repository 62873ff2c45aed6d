import GitWarp.Index.Answering

/-!
# Phases of building and updating

What each phase of the builder and of the updater does to the nodes, the edges
and the properties of a tree.
-/
namespace GitWarp

open Js Lib KeyCodec List

variable {V : Type}

variable {E : Set EdgeParts} (xs : List JsString) (t : IndexTree V)

namespace IndexTree

/-- The nodes and the properties of two trees are the same. -/
structure SameNodes (t t' : IndexTree V) : Prop where
  nodes : t'.nodeToGlobal = t.nodeToGlobal
  alive : t'.alive = t.alive
  props : t'.props = t.props

theorem SameNodes.refl : t.SameNodes t := ⟨rfl, rfl, rfl⟩

theorem SameNodes.trans {t t' t'' : IndexTree V} (first : t.SameNodes t')
    (second : t'.SameNodes t'') : t.SameNodes t'' :=
  ⟨second.nodes.trans first.nodes, second.alive.trans first.alive, second.props.trans first.props⟩

theorem SameNodes.isAlive {t t' : IndexTree V} (same : t.SameNodes t') (x) :
    t'.isAlive x = t.isAlive x := by
  rw [IndexTree.isAlive, IndexTree.isAlive, same.nodes, same.alive]

/-! ### Nodes -/

theorem isAlive_iff (x) :
    t.isAlive x = true ↔ ∃ g, t.nodeToGlobal.get x = some g ∧ g ∈ t.alive := by
  unfold isAlive
  split
  next missing => simp [missing]
  next g found => simp [found]

/-- What adding nodes leaves behind. -/
structure AddsNodes (t t' : IndexTree V) (added : List JsString) : Prop where
  alive : ∀ x, t'.isAlive x = true ↔ t.isAlive x = true ∨ x ∈ added
  kept : ∀ x g, t.nodeToGlobal.get x = some g → t'.nodeToGlobal.get x = some g
  numbered : ∀ x, (t'.nodeToGlobal.get x).isSome = true ↔
    (t.nodeToGlobal.get x).isSome = true ∨ x ∈ added
  labels : t'.labels = t.labels
  props : t'.props = t.props

/-- A node whose number is marked alive after its allocation. -/
theorem Holds.addNode {t t' : IndexTree V} (holds : t.Holds E) (x overflow)
    (allocated : t.allocate x overflow = .ok (g, t')) :
    ({ t' with alive := t'.alive.add g } : IndexTree V).Holds E ∧
      t.AddsNodes { t' with alive := t'.alive.add g } [x] := by
  obtain ⟨after, allocates⟩ := holds.allocate x g allocated
  refine ⟨after.relink rfl rfl rfl after.known after.fwd after.rev, ?_, allocates.kept, ?_,
    allocates.labels, allocates.props⟩
  rotate_left
  · intro y
    rw [mem_singleton]
    by_cases same : y = x
    · simp [same, allocates.number]
    · simp [same, allocates.others y same]
  intro y
  simp only [isAlive_iff, OrdSet.mem_add, mem_singleton, allocates.alive]
  constructor
  · rintro ⟨h, found, old | rfl⟩
    · by_cases same : y = x
      · exact Or.inr same
      · exact Or.inl ⟨h, allocates.others y same ▸ found, old⟩
    · exact Or.inr (after.nodes y x h found allocates.number)
  · rintro (⟨h, found, old⟩ | rfl)
    · exact ⟨h, allocates.kept y h found, Or.inl old⟩
    · exact ⟨g, allocates.number, Or.inr rfl⟩

theorem AddsNodes.cons {t t' t'' : IndexTree V} (first : t.AddsNodes t' [x])
    (later : t'.AddsNodes t'' rest) : t.AddsNodes t'' (x :: rest) where
  alive := by
    intro y
    rw [later.alive, first.alive, mem_singleton, mem_cons, or_assoc]
  kept := fun y g found => later.kept y g (first.kept y g found)
  numbered := by
    intro y
    rw [later.numbered, first.numbered, mem_singleton, mem_cons, or_assoc]
  labels := later.labels.trans first.labels
  props := later.props.trans first.props

theorem addsNodes_nil : t.AddsNodes t [] :=
  ⟨by simp, fun _ _ found => found, by simp, rfl, rfl⟩

theorem Holds.handleNodeAdds (holds : t.Holds E) (added : IndexTree.handleNodeAdds xs t = .ok t') :
    t'.Holds E ∧ t.AddsNodes t' xs := by
  induction xs generalizing t with
  | nil =>
    cases added
    exact ⟨holds, addsNodes_nil _⟩
  | cons x rest ih =>
    obtain ⟨next, first, later⟩ := bind_eq_ok.mp added
    unfold IndexTree.handleNodeAdd at first
    cases allocated : t.allocate x _ with
    | error e =>
      rw [allocated] at first
      cases first
    | ok result =>
      rw [allocated] at first
      cases first
      obtain ⟨after, adds⟩ := holds.addNode x _ allocated
      obtain ⟨last, more⟩ := ih _ after later
      exact ⟨last, adds.cons more⟩

theorem registerNodes_ok_iff : registerNodes xs t = .ok t' ↔ handleNodeAdds xs t = .ok t' := by
  induction xs generalizing t with
  | nil => rfl
  | cons x rest ih =>
    simp only [registerNodes, handleNodeAdds, registerNode, handleNodeAdd, allocate]
    cases found : t.nodeToGlobal.get x with
    | some g =>
      -- marking the node alive finds its number again
      simp only [Except.map, bind, Except.bind, markAlive, found]
      exact ih _
    | none =>
      dsimp only
      split
      · simp [Except.map, bind, Except.bind]
      · simp only [Except.map, bind, Except.bind, markAlive, OrdMap.get_set, if_true]
        exact ih _

/-- The shards have room for the nodes that get new numbers. -/
def HasRoom (t : IndexTree V) (xs : List JsString) : Prop :=
  ∀ k, t.nextLocalId k + (xs.filter fun x => computeShardKey x = k ∧
    t.nodeToGlobal.get x = none).length ≤ maxLocalId

theorem HasRoom.handleNodeAdds (room : t.HasRoom xs) :
    ∃ t', IndexTree.handleNodeAdds xs t = .ok t' := by
  induction xs generalizing t with
  | nil => exact ⟨t, rfl⟩
  | cons x rest ih =>
    simp only [IndexTree.handleNodeAdds, IndexTree.handleNodeAdd, IndexTree.allocate]
    split
    next g found =>
      apply ih
      intro k
      have enough := room k
      rw [filter_cons_of_neg (by simp [found])] at enough
      exact enough
    next missing =>
      have here := room (computeShardKey x)
      rw [filter_cons_of_pos (by simp [missing]), length_cons] at here
      rw [if_neg (by omega)]
      apply ih
      intro k
      -- the nodes still without a number are among those of before
      have fewer : (rest.filter fun y => computeShardKey y = k ∧
          (t.nodeToGlobal.set x ((computeShardKey x).val * maxLocalId +
            t.nextLocalId (computeShardKey x))).get y = none).length ≤
          (rest.filter fun y => computeShardKey y = k ∧ t.nodeToGlobal.get y = none).length := by
        apply List.Sublist.length_le
        apply monotone_filter_right
        intro y
        simp only [OrdMap.get_set, decide_eq_true_eq]
        rintro ⟨shard, absent⟩
        split at absent
        · cases absent
        · exact ⟨shard, absent⟩
      have before := room k
      by_cases same : k = computeShardKey x
      · subst same
        simp only [Function.update_self]
        omega
      · rw [filter_cons_of_neg (by simp [Ne.symm same])] at before
        simp only [Function.update_of_ne same]
        omega

/-- Nodes that one tree has numbers for fit into an empty tree. -/
theorem Numbered.fits {t : IndexTree V} (numbered : t.Numbered) (xs) (nodup : xs.Nodup)
    (known : ∀ x ∈ xs, (t.nodeToGlobal.get x).isSome = true) :
    (empty : IndexTree V).HasRoom xs := by
  intro k
  let local_ := fun x => (t.nodeToGlobal.get x).getD 0 % maxLocalId
  let here := xs.filter fun x => computeShardKey x = k ∧
    (empty : IndexTree V).nodeToGlobal.get x = none
  have distinct : (here.map local_).Nodup := by
    apply List.Nodup.map_on ?_ (nodup.filter _)
    intro x left y right same
    simp only [mem_filter, decide_eq_true_eq] at left right
    obtain ⟨g, first⟩ := Option.isSome_iff_exists.mp (known x left.1)
    obtain ⟨h, second⟩ := Option.isSome_iff_exists.mp (known y right.1)
    -- both numbers lie in the shard `k`, so they agree when their local parts do
    have shardX := (numbered.ids x g first).1
    have shardY := (numbered.ids y h second).1
    rw [left.2.1] at shardX
    rw [right.2.1] at shardY
    simp only [local_, first, second, Option.getD_some] at same
    have equal : g = h := by
      rw [← Nat.div_add_mod g maxLocalId, ← Nat.div_add_mod h maxLocalId, shardX, shardY, same]
    exact numbered.nodes x y g first (equal ▸ second)
  have bounded : here.map local_ ⊆ List.range maxLocalId := by
    intro n mem
    obtain ⟨x, -, rfl⟩ := mem_map.mp mem
    exact mem_range.mpr (Nat.mod_lt _ (by decide))
  have count := (subperm_of_subset distinct bounded).length_le
  rw [length_map, length_range] at count
  exact (Nat.zero_add _).le.trans count

theorem Holds.handleNodeRemoves (holds : t.Holds E) :
    (xs.foldl handleNodeRemove t).Holds E ∧
      (∀ x, (xs.foldl handleNodeRemove t).isAlive x = true ↔ t.isAlive x = true ∧ x ∉ xs) ∧
      (xs.foldl handleNodeRemove t).nodeToGlobal = t.nodeToGlobal ∧
      (xs.foldl handleNodeRemove t).props = t.props := by
  induction xs generalizing t with
  | nil => exact ⟨holds, by simp, rfl, rfl⟩
  | cons x rest ih =>
    have step : (t.handleNodeRemove x).Holds E ∧
        (∀ y, (t.handleNodeRemove x).isAlive y = true ↔ t.isAlive y = true ∧ y ≠ x) ∧
        (t.handleNodeRemove x).nodeToGlobal = t.nodeToGlobal ∧
        (t.handleNodeRemove x).props = t.props := by
      unfold handleNodeRemove
      split
      next missing =>
        refine ⟨holds, fun y => ?_, rfl, rfl⟩
        refine ⟨fun alive => ⟨alive, ?_⟩, fun alive => alive.1⟩
        rintro rfl
        simp [isAlive, missing] at alive
      next g found =>
        refine ⟨holds.relink rfl rfl rfl holds.known holds.fwd holds.rev, fun y => ?_, rfl, rfl⟩
        simp only [isAlive_iff, OrdSet.mem_delete]
        constructor
        · rintro ⟨h, number, member, other⟩
          refine ⟨⟨h, number, member⟩, ?_⟩
          rintro rfl
          exact other (Option.some.inj (number.symm.trans found))
        · rintro ⟨⟨h, number, member⟩, other⟩
          refine ⟨h, number, member, ?_⟩
          rintro rfl
          exact other (holds.nodes y x h number found)
    obtain ⟨after, alive, nodes, props⟩ := step
    obtain ⟨last, aliveRest, nodesRest, propsRest⟩ := ih _ after
    rw [foldl_cons]
    refine ⟨last, fun y => ?_, nodesRest.trans nodes, propsRest.trans props⟩
    rw [aliveRest, alive, mem_cons, not_or, and_assoc]

/-! ### Edges -/

theorem purgeNodeEdges_sameNodes (x) : t.SameNodes (t.purgeNodeEdges x) := by
  unfold purgeNodeEdges
  split <;> exact ⟨rfl, rfl, rfl⟩

theorem Holds.purge (E) (holds : t.Holds E) :
    (xs.foldl IndexTree.purgeNodeEdges t).Holds {e ∈ E | e.src ∉ xs ∧ e.dst ∉ xs} ∧
      t.SameNodes (xs.foldl IndexTree.purgeNodeEdges t) := by
  induction xs generalizing t E with
  | nil => exact ⟨holds.congr (by simp), .refl t⟩
  | cons x rest ih =>
    obtain ⟨after, same⟩ := ih _ _ (holds.purgeNodeEdges x)
    refine ⟨after.congr fun e => ?_, (purgeNodeEdges_sameNodes t x).trans same⟩
    simp only [Set.mem_ofPred_eq, mem_cons, not_or]
    tauto

theorem Holds.unlink {edges : List EdgeParts} (t : IndexTree V) (E) (holds : t.Holds E) :
    (edges.foldl IndexTree.handleEdgeRemove t).Holds {e ∈ E | e ∉ edges} ∧
      t.SameNodes (edges.foldl IndexTree.handleEdgeRemove t) := by
  induction edges generalizing t E with
  | nil => exact ⟨holds.congr (by simp), .refl t⟩
  | cons e rest ih =>
    obtain ⟨after, same⟩ := ih _ _ (holds.handleEdgeRemove e)
    have first : t.SameNodes (t.handleEdgeRemove e) := by
      unfold IndexTree.handleEdgeRemove
      split <;> exact ⟨rfl, rfl, rfl⟩
    rw [foldl_cons]
    refine ⟨after.congr fun e' => ?_, first.trans same⟩
    simp only [Set.mem_ofPred_eq, Set.mem_sdiff, Set.mem_singleton_iff, mem_cons, not_or]
    tauto

theorem Holds.ensureLabel {t : IndexTree V} (holds : t.Holds E) :
    (t.ensureLabel label).Holds E ∧
      ((t.ensureLabel label).labels.get label).isSome = true ∧ t.SameNodes (t.ensureLabel label) := by
  unfold IndexTree.ensureLabel
  split
  next present => exact ⟨holds, present, .refl t⟩
  next absent =>
    have missing : t.labels.get label = none := by
      simpa [OrdMap.has] using absent
    refine ⟨holds.setLabel missing fun l held => ?_, by simp, ⟨rfl, rfl, rfl⟩⟩
    -- the new number is above every number in use
    have bound : ∀ (ids : List Nat) (start i : Nat), i < start ∨ i ∈ ids →
        i < (ids.map (· + 1)).foldl max start := by
      intro ids
      induction ids with
      | nil =>
        intro start i inside
        simpa using inside
      | cons id rest ih =>
        intro start i inside
        apply ih
        rcases inside with below | inside
        · exact Or.inl (lt_of_lt_of_le below (le_max_left _ _))
        · rcases mem_cons.mp inside with rfl | later
          · exact Or.inl (lt_of_lt_of_le (Nat.lt_succ_self _) (le_max_right _ _))
          · exact Or.inr later
    have listed : (t.labels.values.map (· + 1)).foldl max 0 ∈ t.labels.values :=
      mem_map_of_mem ((t.labels.mem_entries_iff _).mpr held)
    exact Nat.lt_irrefl _ (bound t.labels.values 0 _ (Or.inr listed))

/-- Labels numbered in the order of their registration. -/
structure Dense (t : IndexTree V) : Prop where
  below : ∀ l i, t.labels.get l = some i → i < t.labels.size

theorem Holds.registerLabel {t : IndexTree V} (holds : t.Holds E) (dense : t.Dense) :
    (t.registerLabel label).Holds E ∧ (t.registerLabel label).Dense ∧
      t.SameNodes (t.registerLabel label) ∧
      ∀ l, ((t.registerLabel label).labels.get l).isSome = true ↔
        (t.labels.get l).isSome = true ∨ l = label := by
  unfold IndexTree.registerLabel
  split
  next present =>
    refine ⟨holds, dense, .refl t, fun l => ⟨Or.inl, ?_⟩⟩
    rintro (old | rfl)
    · exact old
    · exact present
  next absent =>
    have missing : t.labels.get label = none := by
      simpa [OrdMap.has] using absent
    refine ⟨holds.setLabel missing fun l held => ?_, ⟨fun l i held => ?_⟩,
      ⟨rfl, rfl, rfl⟩, fun l => ?_⟩
    · exact Nat.lt_irrefl _ (dense.below l _ held)
    · dsimp only at held ⊢
      rw [OrdMap.size_set_of_absent _ _ missing]
      rw [OrdMap.get_set] at held
      split at held
      · cases held
        exact Nat.lt_succ_self _
      · exact Nat.lt_succ_of_lt (dense.below l i held)
    · simp only [OrdMap.get_set]
      split
      next same => simp [same]
      next other => simp [Ne.symm other]

theorem Holds.registerLabels (labels : List JsString) (t : IndexTree V) (holds : t.Holds E)
    (dense : t.Dense) :
    (labels.foldl IndexTree.registerLabel t).Holds E ∧
      t.SameNodes (labels.foldl IndexTree.registerLabel t) ∧
      ∀ l, (t.labels.get l).isSome = true ∨ l ∈ labels →
        ((labels.foldl IndexTree.registerLabel t).labels.get l).isSome = true := by
  induction labels generalizing t with
  | nil => exact ⟨holds, .refl t, by simp⟩
  | cons label rest ih =>
    obtain ⟨after, still, same, known⟩ := holds.registerLabel dense
    obtain ⟨last, more, all⟩ := ih _ after still
    rw [foldl_cons]
    refine ⟨last, same.trans more, fun l present => all l ?_⟩
    rw [known, or_assoc, ← mem_cons]
    exact present

theorem handleEdgeAdd_sameNodes (e) : t.SameNodes (t.handleEdgeAdd e) := by
  unfold handleEdgeAdd
  split <;> exact ⟨rfl, rfl, rfl⟩

theorem Holds.addEdges (edges : List EdgeParts) (t : IndexTree V) (E) (holds : t.Holds E)
    (known : ∀ e ∈ edges, (t.nodeToGlobal.get e.src).isSome = true ∧
      (t.nodeToGlobal.get e.dst).isSome = true ∧ (t.labels.get e.label).isSome = true) :
    (edges.foldl IndexTree.addEdge t).Holds {e | e ∈ E ∨ e ∈ edges} ∧
      t.SameNodes (edges.foldl IndexTree.addEdge t) := by
  induction edges generalizing t E with
  | nil => exact ⟨holds.congr (by simp), .refl t⟩
  | cons e rest ih =>
    obtain ⟨src, dst, label⟩ := known e mem_cons_self
    have linked := holds.handleEdgeAdd src dst label
    have same := handleEdgeAdd_sameNodes t e
    have labels : (t.handleEdgeAdd e).labels = t.labels := by
      unfold IndexTree.handleEdgeAdd
      split <;> rfl
    obtain ⟨after, more⟩ := ih (t.handleEdgeAdd e) _ linked (by
      intro e' mem
      rw [same.nodes, labels]
      exact known e' (mem_cons_of_mem _ mem))
    refine ⟨after.congr fun e' => ?_, same.trans more⟩
    simp only [Set.mem_ofPred_eq, Set.mem_insert_iff, mem_cons]
    tauto

/-- The endpoints of every edge between alive nodes have numbers. -/
def CoversAlive (t : IndexTree V) (s : WarpState V) : Prop :=
  ∀ x, visibleNode s x = true → (t.nodeToGlobal.get x).isSome = true

theorem Holds.addVisibleEdge {t : IndexTree V} (holds : t.Holds E) (s) (covers : t.CoversAlive s)
    (e) :
    (t.addVisibleEdge s e).Holds
      {e' | e' ∈ E ∨ e' = e ∧ visibleNode s e.src = true ∧ visibleNode s e.dst = true} ∧
      t.SameNodes (t.addVisibleEdge s e) := by
  unfold IndexTree.addVisibleEdge
  split
  next alive =>
    rw [Bool.and_eq_true] at alive
    obtain ⟨labelled, known, same⟩ := holds.ensureLabel
    have linked := labelled.handleEdgeAdd (by rw [same.nodes]; exact covers _ alive.1)
      (by rw [same.nodes]; exact covers _ alive.2) known
    refine ⟨linked.congr fun e' => ?_, same.trans (handleEdgeAdd_sameNodes _ e)⟩
    simp only [Set.mem_insert_iff, Set.mem_ofPred_eq, visibleNode, alive, and_self, and_true]
    exact or_comm
  next dead =>
    refine ⟨holds.congr fun e' => ⟨Or.inl, fun mem => ?_⟩, .refl t⟩
    rcases mem with old | ⟨-, src, dst⟩
    · exact old
    · simp only [visibleNode] at src dst
      simp [src, dst] at dead

theorem Holds.link (edges : List EdgeParts) (t E) (holds : t.Holds E) (covers : t.CoversAlive s) :
    (edges.foldl (IndexTree.addVisibleEdge s) t).Holds {e | e ∈ E ∨ e ∈ edges ∧
        visibleNode s e.src = true ∧ visibleNode s e.dst = true} ∧
      t.SameNodes (edges.foldl (IndexTree.addVisibleEdge s) t) := by
  induction edges generalizing t E with
  | nil => exact ⟨holds.congr (by simp), .refl t⟩
  | cons e rest ih =>
    obtain ⟨first, same⟩ := holds.addVisibleEdge s covers e
    obtain ⟨after, more⟩ := ih _ _ first (by
      intro x alive
      rw [same.nodes]
      exact covers x alive)
    rw [foldl_cons]
    refine ⟨after.congr fun e' => ?_, same.trans more⟩
    simp only [Set.mem_ofPred_eq, mem_cons]
    constructor
    · rintro ((old | ⟨rfl, alive⟩) | ⟨later, alive⟩)
      · exact Or.inl old
      · exact Or.inr ⟨Or.inl rfl, alive⟩
      · exact Or.inr ⟨Or.inr later, alive⟩
    · rintro (old | ⟨rfl | later, alive⟩)
      · exact Or.inl (Or.inl old)
      · exact Or.inl (Or.inr ⟨rfl, alive⟩)
      · exact Or.inr ⟨later, alive⟩

end IndexTree
end GitWarp
