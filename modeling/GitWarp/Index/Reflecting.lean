import GitWarp.Index.IncrementalIndexUpdater

/-!
# What an index holds

A tree holds a set of edges when its bitmaps, read through the numbers of nodes
and labels, are exactly these edges in both directions. Each operation of the
builder and of the updater changes the set as its name says.
-/
namespace GitWarp

open Js Lib KeyCodec List OrdMap Function

variable {V : Type}

variable {t t' : IndexTree V} {E : Set EdgeParts}

namespace IndexTree

/-! ### Numbers -/

/-- The numbers that stand for an edge in the tree. -/
structure Codes (t : IndexTree V) (e : EdgeParts) (labelId fromGid toGid : Nat) : Prop where
  src : t.nodeToGlobal.get e.src = some fromGid
  dst : t.nodeToGlobal.get e.dst = some toGid
  label : t.labels.get e.label = some labelId

/-- Numbers lie in the shard of their node, below its counter; nodes and labels do not share
numbers. -/
structure Numbered (t : IndexTree V) : Prop where
  ids : ∀ x g, t.nodeToGlobal.get x = some g →
    g / maxLocalId = (computeShardKey x).val ∧ g % maxLocalId < t.nextLocalId (computeShardKey x)
  nodes : ∀ x y g, t.nodeToGlobal.get x = some g → t.nodeToGlobal.get y = some g → x = y
  labels : ∀ l l' i, t.labels.get l = some i → t.labels.get l' = some i → l = l'

/-- The bitmaps of labels are exactly the edges of the set. -/
structure Holds (t : IndexTree V) (E : Set EdgeParts) : Prop extends Numbered t where
  known : ∀ e ∈ E, ∃ i g h, t.Codes e i g h
  fwd : ∀ i g h, h ∈ t.fwd.members (.label i, g) ↔ ∃ e ∈ E, t.Codes e i g h
  rev : ∀ i g h, g ∈ t.rev.members (.label i, h) ↔ ∃ e ∈ E, t.Codes e i g h

theorem holds_empty : (empty : IndexTree V).Holds ∅ where
  ids := by simp [empty]
  nodes := by simp [empty]
  labels := by simp [empty]
  known := by simp
  fwd := by simp [empty]
  rev := by simp [empty]

theorem Numbered.code_unique (numbered : t.Numbered) (left : t.Codes e i g h)
    (right : t.Codes e' i g h) : e = e' := by
  have src := numbered.nodes _ _ _ left.src right.src
  have dst := numbered.nodes _ _ _ left.dst right.dst
  have label := numbered.labels _ _ _ left.label right.label
  cases e
  cases e'
  simp_all

theorem Codes.fixed (left : t.Codes e i g h) (right : t.Codes e i' g' h') :
    i = i' ∧ g = g' ∧ h = h' :=
  ⟨Option.some.inj (left.label.symm.trans right.label),
    Option.some.inj (left.src.symm.trans right.src),
    Option.some.inj (left.dst.symm.trans right.dst)⟩

theorem find_number {m : OrdMap JsString Nat} (distinct : ∀ x y g, m.get x = some g →
    m.get y = some g → x = y) :
    (m.entries.find? fun entry => entry.2 = g).map Prod.fst = some x ↔ m.get x = some g := by
  -- a lookup by number finds the key that carries it
  constructor
  · intro found
    obtain ⟨⟨y, g'⟩, present, rfl⟩ := Option.map_eq_some_iff.mp found
    have same := List.find?_some present
    have mem := List.mem_of_find?_eq_some present
    rw [decide_eq_true_eq] at same
    subst same
    exact (m.mem_entries_iff y).mp mem
  · intro held
    cases present : m.entries.find? fun entry => entry.2 = g with
    | none =>
      have absent := List.find?_eq_none.mp present (x, g) ((m.mem_entries_iff x).mpr held)
      simp at absent
    | some entry =>
      obtain ⟨y, g'⟩ := entry
      have same := List.find?_some present
      have mem := List.mem_of_find?_eq_some present
      rw [decide_eq_true_eq] at same
      subst same
      rw [distinct y x g' ((m.mem_entries_iff y).mp mem) held]
      rfl

theorem Numbered.nodeOf_eq (numbered : t.Numbered) :
    t.nodeOf g = some x ↔ t.nodeToGlobal.get x = some g :=
  find_number numbered.nodes

theorem Numbered.labelOf_eq (numbered : t.Numbered) (held : t.labels.get l = some i) :
    t.labelOf i = l := by
  rw [labelOf, (find_number numbered.labels).mpr held]
  rfl

/-! ### Changes of the numbers -/

/-- The codes stay while the numbers of the edges of the set stay. -/
theorem Holds.extend (holds : t.Holds E) (numbered : t'.Numbered) (fwd : t'.fwd = t.fwd)
    (rev : t'.rev = t.rev)
    (nodes : ∀ x g, t.nodeToGlobal.get x = some g → t'.nodeToGlobal.get x = some g)
    (labels : ∀ l i, t.labels.get l = some i → t'.labels.get l = some i) : t'.Holds E := by
  have kept : ∀ e ∈ E, ∀ i g h, t'.Codes e i g h ↔ t.Codes e i g h := by
    intro e mem i g h
    obtain ⟨i', g', h', old⟩ := holds.known e mem
    have new : t'.Codes e i' g' h' := ⟨nodes _ _ old.src, nodes _ _ old.dst, labels _ _ old.label⟩
    constructor
    · intro codes
      obtain ⟨rfl, rfl, rfl⟩ := codes.fixed new
      exact old
    · intro codes
      obtain ⟨rfl, rfl, rfl⟩ := codes.fixed old
      exact new
  have same : ∀ i g h, (∃ e ∈ E, t'.Codes e i g h) ↔ ∃ e ∈ E, t.Codes e i g h := fun i g h =>
    exists_congr fun e => and_congr_right fun mem => kept e mem i g h
  refine { numbered with known := ?_, fwd := ?_, rev := ?_ }
  · intro e mem
    obtain ⟨i, g, h, codes⟩ := holds.known e mem
    exact ⟨i, g, h, (kept e mem i g h).mpr codes⟩
  · intro i g h
    rw [fwd, holds.fwd, same]
  · intro i g h
    rw [rev, holds.rev, same]

theorem Holds.congr (holds : t.Holds E) (same : ∀ e, e ∈ E ↔ e ∈ F) : t.Holds F := by
  rw [← Set.ext same]
  exact holds

/-- A number keeps its node, and every node that has a number keeps it. -/
structure Allocates (t t' : IndexTree V) (x : JsString) (g : Nat) : Prop where
  number : t'.nodeToGlobal.get x = some g
  others : ∀ y, y ≠ x → t'.nodeToGlobal.get y = t.nodeToGlobal.get y
  kept : ∀ y h, t.nodeToGlobal.get y = some h → t'.nodeToGlobal.get y = some h
  alive : t'.alive = t.alive
  labels : t'.labels = t.labels
  fwd : t'.fwd = t.fwd
  rev : t'.rev = t.rev
  props : t'.props = t.props

theorem Numbered.allocate (numbered : t.Numbered) (x g)
    (allocated : t.allocate x overflow = .ok (g, t')) : t'.Numbered ∧ t.Allocates t' x g := by
  unfold IndexTree.allocate at allocated
  split at allocated
  next existing found =>
    cases allocated
    exact ⟨numbered, found, fun _ _ => rfl, fun _ _ held => held, rfl, rfl, rfl, rfl, rfl⟩
  next missing =>
    dsimp only at allocated
    split at allocated
    · cases allocated
    next room =>
      cases allocated
      have small : t.nextLocalId (computeShardKey x) < maxLocalId := not_le.mp room
      have quotient : ((computeShardKey x).val * maxLocalId +
          t.nextLocalId (computeShardKey x)) / maxLocalId = (computeShardKey x).val := by
        rw [Nat.add_comm, Nat.add_mul_div_right _ _ (by decide), Nat.div_eq_of_lt small, Nat.zero_add]
      have remainder : ((computeShardKey x).val * maxLocalId +
          t.nextLocalId (computeShardKey x)) % maxLocalId = t.nextLocalId (computeShardKey x) := by
        rw [Nat.add_comm, Nat.add_mul_mod_self_right, Nat.mod_eq_of_lt small]
      -- the new number is the counter itself, above every number of its shard
      have fresh : ∀ y, t.nodeToGlobal.get y ≠ some ((computeShardKey x).val * maxLocalId +
          t.nextLocalId (computeShardKey x)) := by
        intro y held
        obtain ⟨shard, below⟩ := numbered.ids y _ held
        rw [quotient] at shard
        rw [remainder, ← Fin.ext shard] at below
        exact Nat.lt_irrefl _ below
      refine ⟨⟨?_, ?_, numbered.labels⟩, ?_, ?_, ?_, rfl, rfl, rfl, rfl, rfl⟩
      · intro y h held
        rw [get_set] at held
        split at held
        next same =>
          cases held
          subst same
          refine ⟨quotient, ?_⟩
          simp only [remainder, update_self]
          exact Nat.lt_succ_self _
        next other =>
          obtain ⟨shard, below⟩ := numbered.ids y h held
          refine ⟨shard, lt_of_lt_of_le below ?_⟩
          by_cases same : computeShardKey y = computeShardKey x
          · simp only [same, update_self]
            exact Nat.le_succ _
          · simp only [update_of_ne same]
            exact Nat.le_refl _
      · intro y z h left right
        rw [get_set] at left right
        split at left <;> split at right
        next one two => exact one.symm.trans two
        next one two =>
          cases left
          exact absurd right (fresh z)
        next one two =>
          cases right
          exact absurd left (fresh y)
        next one two => exact numbered.nodes y z h left right
      · simp
      · intro y other
        simp [Ne.symm other]
      · intro y h held
        rw [get_set]
        split
        next same =>
          rw [← same, missing] at held
          cases held
        next other => exact held

section

variable (holds : t.Holds E)
include holds

theorem Holds.allocate (x g) (allocated : t.allocate x overflow = .ok (g, t')) :
    t'.Holds E ∧ t.Allocates t' x g := by
  obtain ⟨numbered, allocates⟩ := holds.toNumbered.allocate x g allocated
  exact ⟨holds.extend numbered allocates.fwd allocates.rev allocates.kept
    (by rw [allocates.labels]; exact fun _ _ held => held), allocates⟩

/-- A label that gets a number no label has. -/
theorem Holds.setLabel {label id} (missing : t.labels.get label = none)
    (fresh : ∀ l, t.labels.get l ≠ some id) :
    ({ t with labels := t.labels.set label id } : IndexTree V).Holds E := by
  have numbered : ({ t with labels := t.labels.set label id } : IndexTree V).Numbered := by
    refine ⟨holds.ids, holds.nodes, fun l l' i left right => ?_⟩
    rw [get_set] at left right
    split at left <;> split at right
    next one two => exact one.symm.trans two
    next one two =>
      cases left
      exact absurd right (fresh l')
    next one two =>
      cases right
      exact absurd left (fresh l)
    next one two => exact holds.labels l l' i left right
  apply holds.extend numbered rfl rfl fun _ _ held => held
  intro l i held
  rw [get_set]
  split
  next same =>
    rw [← same, missing] at held
    cases held
  next other => exact held

/-! ### Changes of the edges -/

theorem Holds.relink (nodes : t'.nodeToGlobal = t.nodeToGlobal)
    (next : t'.nextLocalId = t.nextLocalId) (labels : t'.labels = t.labels)
    (known : ∀ e ∈ F, ∃ i g h, t.Codes e i g h)
    (fwd : ∀ i g h, h ∈ t'.fwd.members (.label i, g) ↔ ∃ e ∈ F, t.Codes e i g h)
    (rev : ∀ i g h, g ∈ t'.rev.members (.label i, h) ↔ ∃ e ∈ F, t.Codes e i g h) : t'.Holds F := by
  have codes : ∀ e i g h, t'.Codes e i g h ↔ t.Codes e i g h := by
    intro e i g h
    constructor
    · rintro ⟨src, dst, label⟩
      exact ⟨nodes ▸ src, nodes ▸ dst, labels ▸ label⟩
    · rintro ⟨src, dst, label⟩
      exact ⟨nodes ▸ src, nodes ▸ dst, labels ▸ label⟩
  refine ⟨⟨?_, ?_, ?_⟩, ?_, ?_, ?_⟩
  · rw [nodes, next]
    exact holds.ids
  · rw [nodes]
    exact holds.nodes
  · rw [labels]
    exact holds.labels
  · simpa only [codes] using known
  · simpa only [codes] using fwd
  · simpa only [codes] using rev

theorem Holds.addToBitmaps (e) (codes : t.Codes e i g h) :
    (t.addToBitmaps g h i).Holds (insert e E) := by
  have same : ∀ i' g' h', (∃ e' ∈ insert e E, t.Codes e' i' g' h') ↔
      (∃ e' ∈ E, t.Codes e' i' g' h') ∨ i' = i ∧ g' = g ∧ h' = h := by
    intro i' g' h'
    constructor
    · rintro ⟨e', rfl | old, code⟩
      · obtain ⟨rfl, rfl, rfl⟩ := code.fixed codes
        exact Or.inr ⟨rfl, rfl, rfl⟩
      · exact Or.inl ⟨e', old, code⟩
    · rintro (⟨e', old, code⟩ | ⟨rfl, rfl, rfl⟩)
      · exact ⟨e', Or.inr old, code⟩
      · exact ⟨e, Or.inl rfl, codes⟩
  refine holds.relink rfl rfl rfl ?_ ?_ ?_
  · rintro e' (rfl | old)
    · exact ⟨i, g, h, codes⟩
    · exact holds.known e' old
  · intro i' g' h'
    rw [same, ← holds.fwd, IndexTree.addToBitmaps]
    simp only [mem_addAt, Prod.mk.injEq, Bucket.label.injEq, reduceCtorEq, false_and,
      or_false, and_assoc, eq_comm]
  · intro i' g' h'
    rw [same, ← holds.rev, IndexTree.addToBitmaps]
    simp only [mem_addAt, Prod.mk.injEq, Bucket.label.injEq, reduceCtorEq, false_and,
      or_false, eq_comm]
    tauto

theorem Holds.handleEdgeAdd (src : (t.nodeToGlobal.get e.src).isSome = true)
    (dst : (t.nodeToGlobal.get e.dst).isSome = true) (label : (t.labels.get e.label).isSome = true) :
    (t.handleEdgeAdd e).Holds (insert e E) := by
  obtain ⟨g, foundSrc⟩ := Option.isSome_iff_exists.mp src
  obtain ⟨h, foundDst⟩ := Option.isSome_iff_exists.mp dst
  obtain ⟨i, foundLabel⟩ := Option.isSome_iff_exists.mp label
  simp only [IndexTree.handleEdgeAdd, foundSrc, foundDst, foundLabel]
  exact holds.addToBitmaps e ⟨foundSrc, foundDst, foundLabel⟩

end

theorem members_recomputeAllBucket (labels) (owner) (data) (i g) :
    (recomputeAllBucket labels owner data).members (.label i, g) = data.members (.label i, g) := by
  rw [recomputeAllBucket, members_set, if_neg (by simp)]

theorem Holds.handleEdgeRemove (holds : t.Holds E) (e) :
    (t.handleEdgeRemove e).Holds (E \ {e}) := by
  unfold IndexTree.handleEdgeRemove
  split
  next g h i foundSrc foundDst foundLabel =>
    have codes : t.Codes e i g h := ⟨foundSrc, foundDst, foundLabel⟩
    have same : ∀ i' g' h', (∃ e' ∈ E \ {e}, t.Codes e' i' g' h') ↔
        (∃ e' ∈ E, t.Codes e' i' g' h') ∧ ¬ (i' = i ∧ g' = g ∧ h' = h) := by
      intro i' g' h'
      constructor
      · rintro ⟨e', ⟨member, other⟩, code⟩
        refine ⟨⟨e', member, code⟩, ?_⟩
        rintro ⟨rfl, rfl, rfl⟩
        exact other (holds.code_unique code codes)
      · rintro ⟨⟨e', member, code⟩, other⟩
        refine ⟨e', ⟨member, ?_⟩, code⟩
        rintro rfl
        exact other (code.fixed codes)
    refine holds.relink rfl rfl rfl ?_ ?_ ?_
    · exact fun e' member => holds.known e' member.1
    · intro i' g' h'
      rw [same, ← holds.fwd, members_recomputeAllBucket, mem_removeAt]
      simp only [Prod.mk.injEq, Bucket.label.injEq, and_assoc, eq_comm]
    · intro i' g' h'
      rw [same, ← holds.rev, members_recomputeAllBucket, mem_removeAt]
      simp only [Prod.mk.injEq, Bucket.label.injEq, eq_comm]
      tauto
  next unknown =>
    -- an edge without numbers is not in the set
    apply holds.congr
    intro e'
    refine ⟨fun member => ⟨member, ?_⟩, fun member => member.1⟩
    rintro rfl
    obtain ⟨i, g, h, code⟩ := holds.known e' member
    exact unknown g h i code.src code.dst code.label

/-! ### Removed nodes -/

theorem mem_removePeerReferences (t : IndexTree V) (bucket deadGid peers) (data) (b g x) :
    x ∈ (t.removePeerReferences bucket deadGid peers data).members (b, g) ↔
      x ∈ data.members (b, g) ∧
        ¬ (b = bucket ∧ g ∈ peers ∧ (t.nodeOf g).isSome = true ∧ x = deadGid) := by
  induction peers generalizing data with
  | nil => simp [removePeerReferences]
  | cons peer rest ih =>
    -- one peer: its bitmap loses the dead number if its node is known
    obtain ⟨less, shape, step⟩ : ∃ less, t.removePeerReferences bucket deadGid (peer :: rest) data =
          t.removePeerReferences bucket deadGid rest less ∧
        (x ∈ less.members (b, g) ↔ x ∈ data.members (b, g) ∧
          ¬ (b = bucket ∧ g = peer ∧ (t.nodeOf g).isSome = true ∧ x = deadGid)) := by
      refine ⟨_, rfl, ?_⟩
      dsimp only
      split
      next node bitmap known found =>
        rw [members_set]
        split
        next same =>
          cases same
          simp [OrdMap.members, found, known]
        next other =>
          simp only [Prod.mk.injEq, not_and] at other
          constructor
          · intro mem
            refine ⟨mem, ?_⟩
            rintro ⟨one, two, -⟩
            exact other one.symm two.symm
          · exact fun mem => mem.1
      next missing =>
        constructor
        · intro mem
          refine ⟨mem, ?_⟩
          rintro ⟨rfl, rfl, known, rfl⟩
          obtain ⟨node, named⟩ := Option.isSome_iff_exists.mp known
          cases found : data.get (b, g) with
          | none => simp [OrdMap.members, found] at mem
          | some bitmap => exact missing node bitmap named found
        · exact fun mem => mem.1
    rw [shape, ih, step]
    simp only [mem_cons]
    constructor
    · rintro ⟨⟨mem, first⟩, later⟩
      refine ⟨mem, ?_⟩
      rintro ⟨one, two | two, three, four⟩
      · exact first ⟨one, two, three, four⟩
      · exact later ⟨one, two, three, four⟩
    · rintro ⟨mem, none_⟩
      refine ⟨⟨mem, ?_⟩, ?_⟩
      · rintro ⟨one, two, three, four⟩
        exact none_ ⟨one, Or.inl two, three, four⟩
      · rintro ⟨one, two, three, four⟩
        exact none_ ⟨one, Or.inr two, three, four⟩

theorem mem_purgeBuckets (t : IndexTree V) (buckets : List Bucket)
    (nodup : buckets.Nodup) (primary peer : EdgeBitmaps) (b) :
    let purged := buckets.foldl (fun stores bucket =>
      (stores.1.set (bucket, deadGid) .empty, t.removePeerReferences bucket deadGid
        (stores.1.members (bucket, deadGid)).toList stores.2)) (primary, peer)
    (x ∈ purged.1.members (b, g) ↔ x ∈ primary.members (b, g) ∧ ¬ (g = deadGid ∧ b ∈ buckets)) ∧
      (x ∈ purged.2.members (b, g) ↔ x ∈ peer.members (b, g) ∧
        ¬ (b ∈ buckets ∧ x = deadGid ∧ (t.nodeOf g).isSome = true ∧
          g ∈ primary.members (b, deadGid))) := by
  induction buckets generalizing primary peer with
  | nil => simp
  | cons bucket rest ih =>
    rw [nodup_cons] at nodup
    obtain ⟨first, second⟩ := ih nodup.2 (primary.set (bucket, deadGid) .empty)
      (t.removePeerReferences bucket deadGid (primary.members (bucket, deadGid)).toList peer)
    rw [foldl_cons]
    dsimp only at first second ⊢
    refine ⟨?_, ?_⟩
    · rw [first, members_set]
      split
      next same =>
        cases same
        simp
      next other =>
        simp only [Prod.mk.injEq, not_and] at other
        simp only [mem_cons]
        refine and_congr_right fun _ => not_congr (and_congr_right fun owner => ?_)
        exact ⟨Or.inr, fun listed => listed.resolve_left fun same => other same.symm owner.symm⟩
    · rw [second, mem_removePeerReferences, members_set]
      simp only [mem_cons, OrdSet.mem_toList]
      by_cases same : b = bucket
      · subst same
        simp only [nodup.1, false_and, not_false_eq_true, and_true, true_and, true_or]
        tauto
      · have apart : ¬ (bucket, deadGid) = (b, deadGid) := fun equal =>
          same (congrArg Prod.fst equal).symm
        simp only [same, false_and, not_false_eq_true, and_true, false_or, if_neg apart]

theorem mem_purgeDirection (t : IndexTree V) :
    (x ∈ (t.purgeDirection deadGid primary peer).1.members (b, g) ↔
      x ∈ primary.members (b, g) ∧ g ≠ deadGid) ∧
    (x ∈ (t.purgeDirection deadGid primary peer).2.members (b, g) ↔ x ∈ peer.members (b, g) ∧
      ¬ (x = deadGid ∧ (t.nodeOf g).isSome = true ∧ g ∈ primary.members (b, deadGid))) := by
  -- purging in one direction: the dead number owns nothing any more, and its peers no longer
  -- refer to it
  have nodup : ((primary.keys.filter fun key => key.2 = deadGid).map Prod.fst).Nodup := by
    apply List.Nodup.map_on ?_ (primary.nodup.filter _)
    rintro ⟨b, g⟩ left ⟨b', g'⟩ right rfl
    simp only [mem_filter, decide_eq_true_eq] at left right
    rw [left.2, right.2]
  obtain ⟨first, second⟩ := mem_purgeBuckets t _ nodup primary peer b
  -- a bucket that has any member is listed
  have listed : ∀ b y, y ∈ primary.members (b, deadGid) →
      b ∈ (primary.keys.filter fun key => key.2 = deadGid).map Prod.fst := by
    intro b y mem
    refine mem_map.mpr ⟨(b, deadGid), mem_filter.mpr ⟨?_, by simp⟩, rfl⟩
    rw [mem_keys_iff]
    cases found : primary.get (b, deadGid) with
    | none => simp [OrdMap.members, found] at mem
    | some bitmap => rfl
  unfold purgeDirection
  dsimp only at first second ⊢
  refine ⟨first.trans ?_, second.trans ?_⟩
  · constructor
    · rintro ⟨mem, owned⟩
      refine ⟨mem, ?_⟩
      rintro rfl
      exact owned ⟨rfl, listed b x mem⟩
    · rintro ⟨mem, other⟩
      exact ⟨mem, fun owned => other owned.1⟩
  · refine and_congr_right fun _ => not_congr ?_
    exact ⟨fun ⟨_, rest⟩ => rest, fun rest => ⟨listed b g rest.2.2, rest⟩⟩

theorem Holds.purgeNodeEdges (holds : t.Holds E) (x) :
    (t.purgeNodeEdges x).Holds {e ∈ E | e.src ≠ x ∧ e.dst ≠ x} := by
  unfold IndexTree.purgeNodeEdges
  split
  next missing =>
    apply holds.congr
    intro e
    refine ⟨fun member => ⟨member, ?_, ?_⟩, fun member => member.1⟩
    · rintro rfl
      obtain ⟨i, g, h, code⟩ := holds.known e member
      exact absurd (missing.symm.trans code.src) (by simp)
    · rintro rfl
      obtain ⟨i, g, h, code⟩ := holds.known e member
      exact absurd (missing.symm.trans code.dst) (by simp)
  next d found =>
    have known : ∀ i g h, (∃ e ∈ E, t.Codes e i g h) →
        (t.nodeOf g).isSome = true ∧ (t.nodeOf h).isSome = true := by
      rintro i g h ⟨e, -, code⟩
      rw [holds.nodeOf_eq.mpr code.src, holds.nodeOf_eq.mpr code.dst]
      exact ⟨rfl, rfl⟩
    have same : ∀ i g h, (∃ e ∈ {e ∈ E | e.src ≠ x ∧ e.dst ≠ x}, t.Codes e i g h) ↔
        (∃ e ∈ E, t.Codes e i g h) ∧ g ≠ d ∧ h ≠ d := by
      intro i g h
      constructor
      · rintro ⟨e, ⟨member, src, dst⟩, code⟩
        refine ⟨⟨e, member, code⟩, ?_, ?_⟩
        · rintro rfl
          exact src (holds.nodes _ _ _ code.src found)
        · rintro rfl
          exact dst (holds.nodes _ _ _ code.dst found)
      · rintro ⟨⟨e, member, code⟩, notSrc, notDst⟩
        refine ⟨e, ⟨member, ?_, ?_⟩, code⟩
        · rintro rfl
          exact notSrc (Option.some.inj (code.src.symm.trans found))
        · rintro rfl
          exact notDst (Option.some.inj (code.dst.symm.trans found))
    -- what is left after the first direction
    have fwdOnce : ∀ i g h, h ∈ (t.purgeDirection d t.fwd t.rev).1.members (.label i, g) ↔
        (∃ e ∈ E, t.Codes e i g h) ∧ g ≠ d := by
      intro i g h
      rw [(mem_purgeDirection t).1, holds.fwd]
    have revOnce : ∀ i g h, g ∈ (t.purgeDirection d t.fwd t.rev).2.members (.label i, h) ↔
        (∃ e ∈ E, t.Codes e i g h) ∧ g ≠ d := by
      intro i g h
      rw [(mem_purgeDirection t).2, holds.rev]
      refine and_congr_right fun held => not_congr ⟨fun owned => owned.1, ?_⟩
      rintro rfl
      exact ⟨rfl, (known i g h held).2, (holds.fwd i g h).mpr held⟩
    have fwdTwice : ∀ i g h, h ∈ (t.purgeDirection d (t.purgeDirection d t.fwd t.rev).2
        (t.purgeDirection d t.fwd t.rev).1).2.members (.label i, g) ↔
        (∃ e ∈ E, t.Codes e i g h) ∧ g ≠ d ∧ h ≠ d := by
      intro i g h
      rw [(mem_purgeDirection t).2, fwdOnce, and_assoc]
      refine and_congr_right fun held => and_congr_right fun notSrc => not_congr
        ⟨fun owned => owned.1, ?_⟩
      rintro rfl
      exact ⟨rfl, (known i g h held).1, (revOnce i g h).mpr ⟨held, notSrc⟩⟩
    have revTwice : ∀ i g h, g ∈ (t.purgeDirection d (t.purgeDirection d t.fwd t.rev).2
        (t.purgeDirection d t.fwd t.rev).1).1.members (.label i, h) ↔
        (∃ e ∈ E, t.Codes e i g h) ∧ g ≠ d ∧ h ≠ d := by
      intro i g h
      rw [(mem_purgeDirection t).1, revOnce, and_assoc]
    refine holds.relink rfl rfl rfl ?_ ?_ ?_
    · exact fun e member => holds.known e member.1
    · intro i g h
      rw [same, ← fwdTwice]
    · intro i g h
      rw [same, ← revTwice]

end IndexTree
end GitWarp
