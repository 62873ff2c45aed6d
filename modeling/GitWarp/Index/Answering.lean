import GitWarp.Index.Reflecting

/-!
# Answers of an index and of a state

The neighbours of a node in a state come from its adjacency lists. A tree that
holds the visible edges of the state gives the same lists.
-/
namespace GitWarp

open Js Lib KeyCodec List

variable {V : Type}

open IndexTree (NeighborEdge neighborOrder Direction)

/-! ### Neighbours in a state -/

/-- `buildAdjacency`: the sorted edges at a node, seen from one of their ends. -/
def adjacency (s : WarpState V) (near far : EdgeParts → JsString) (x : JsString) :
    List NeighborEdge :=
  sortBy neighborOrder (((visibleEdges s).filter fun e => near e = x).map fun e =>
    ⟨far e, e.label⟩)

def filterByLabels (edges : List NeighborEdge) : Option (OrdSet JsString) → List NeighborEdge
  | none => edges
  | some labels => edges.filter fun e => labels.has e.label

/-- Merges two sorted lists; an edge that both have is listed once. -/
def mergeSorted : List NeighborEdge → List NeighborEdge → List NeighborEdge
  | [], b => b
  | a, [] => a
  | x :: a, y :: b =>
    if neighborOrder x < neighborOrder y then x :: mergeSorted a (y :: b)
    else if neighborOrder y < neighborOrder x then y :: mergeSorted (x :: a) b
    else x :: mergeSorted a b
  termination_by a b => a.length + b.length

/-- The neighbours that the adjacency of a state gives. -/
def stateNeighbors (s : WarpState V) (x : JsString) (direction : Direction)
    (labels : Option (OrdSet JsString)) : List NeighborEdge :=
  let out := filterByLabels (adjacency s EdgeParts.src EdgeParts.dst x) labels
  let incoming := filterByLabels (adjacency s EdgeParts.dst EdgeParts.src x) labels
  match direction with
  | .out => out
  | .incoming => incoming
  | .both => mergeSorted out incoming

/-! ### Sorted lists of edges -/

theorem neighborOrder_injective : Function.Injective neighborOrder := by
  intro a b same
  have fields : (a.neighborId, a.label) = (b.neighborId, b.label) := same
  cases a
  cases b
  simp_all

/-- Strictly sorted, so without duplicates. -/
def Ascending (edges : List NeighborEdge) : Prop :=
  edges.Pairwise fun a b => neighborOrder a < neighborOrder b

theorem Ascending.ext (first : Ascending left) (second : Ascending right)
    (same : ∀ e, e ∈ left ↔ e ∈ right) : left = right := by
  have nodup : ∀ l : List NeighborEdge, Ascending l → l.Nodup := by
    intro l sorted
    apply List.Pairwise.imp ?_ sorted
    rintro a b below rfl
    exact lt_irrefl _ below
  have perm := (perm_ext_iff_of_nodup (nodup _ first) (nodup _ second)).mpr same
  apply perm.eq_of_pairwise (fun a b _ _ below above => ?_) first second
  exact absurd (lt_trans below above) (lt_irrefl _)

variable (edges : List NeighborEdge)

theorem ascending_sortBy (nodup : edges.Nodup) : Ascending (sortBy neighborOrder edges) := by
  have sorted := pairwise_sortBy neighborOrder edges
  have distinct : (sortBy neighborOrder edges).Nodup :=
    (perm_sortBy neighborOrder edges).nodup_iff.mpr nodup
  apply (sorted.and distinct).imp
  rintro a b ⟨below, apart⟩
  exact lt_of_le_of_ne below fun same => apart (neighborOrder_injective same)

theorem Ascending.filterByLabels {edges} (sorted : Ascending edges) (labels) :
    Ascending (filterByLabels edges labels) := by
  cases labels with
  | none => exact sorted
  | some labels => exact List.Pairwise.filter _ sorted

theorem mem_filterByLabels (labels e) :
    e ∈ filterByLabels edges labels ↔ e ∈ edges ∧ ∀ allowed ∈ labels, e.label ∈ allowed := by
  cases labels with
  | none | some labels => simp [filterByLabels]

theorem mem_mergeSorted : e ∈ mergeSorted a b ↔ e ∈ a ∨ e ∈ b := by
  fun_induction mergeSorted a b with
  | case1 b | case2 a notNil => simp
  | case3 x a y b below ih => simp [ih, or_assoc]
  | case4 x a y b notBelow above ih => simp [ih, or_left_comm]
  | case5 x a y b notBelow notAbove ih =>
    have same : x = y := neighborOrder_injective
      (le_antisymm (not_lt.mp notAbove) (not_lt.mp notBelow))
    subst same
    simp only [mem_cons, ih]
    tauto

theorem Ascending.mergeSorted (left : Ascending a) (right : Ascending b) :
    Ascending (mergeSorted a b) := by
  fun_induction GitWarp.mergeSorted a b with
  | case1 b => exact right
  | case2 a notNil => exact left
  | case3 x a y b below ih =>
    obtain ⟨first, tail⟩ := pairwise_cons.mp left
    refine pairwise_cons.mpr ⟨fun e mem => ?_, ih tail right⟩
    rcases mem_mergeSorted.mp mem with inLeft | inRight
    · exact first e inLeft
    · rcases mem_cons.mp inRight with rfl | later
      · exact below
      · exact lt_trans below ((pairwise_cons.mp right).1 e later)
  | case4 x a y b notBelow above ih =>
    obtain ⟨first, tail⟩ := pairwise_cons.mp right
    refine pairwise_cons.mpr ⟨fun e mem => ?_, ih left tail⟩
    rcases mem_mergeSorted.mp mem with inLeft | inRight
    · rcases mem_cons.mp inLeft with rfl | later
      · exact above
      · exact lt_trans above ((pairwise_cons.mp left).1 e later)
    · exact first e inRight
  | case5 x a y b notBelow notAbove ih =>
    have same : x = y := neighborOrder_injective
      (le_antisymm (not_lt.mp notAbove) (not_lt.mp notBelow))
    subst same
    obtain ⟨first, tail⟩ := pairwise_cons.mp left
    obtain ⟨first', tail'⟩ := pairwise_cons.mp right
    refine pairwise_cons.mpr ⟨fun e mem => ?_, ih tail tail'⟩
    rcases mem_mergeSorted.mp mem with inLeft | inRight
    · exact first e inLeft
    · exact first' e inRight

theorem mem_dedupSorted (e) : e ∈ IndexTree.dedupSorted edges ↔ e ∈ edges := by
  fun_induction IndexTree.dedupSorted edges with
  | case1 | case2 => rfl
  | case3 x rest ih =>
    rw [ih]
    simp
  | case4 x next rest different ih =>
    rw [mem_cons, ih, ← mem_cons]

theorem ascending_dedupSorted (sorted : edges.Pairwise fun a b => neighborOrder a ≤ neighborOrder b) :
    Ascending (IndexTree.dedupSorted edges) := by
  fun_induction IndexTree.dedupSorted edges with
  | case1 => exact List.Pairwise.nil
  | case2 => exact pairwise_singleton _ _
  | case3 x rest ih => exact ih (pairwise_cons.mp sorted).2
  | case4 x next rest different ih =>
    obtain ⟨first, tail⟩ := pairwise_cons.mp sorted
    refine pairwise_cons.mpr ⟨fun e mem => ?_, ih tail⟩
    rw [mem_dedupSorted] at mem
    have below : neighborOrder x < neighborOrder next :=
      lt_of_le_of_ne (first next mem_cons_self) fun same =>
        different (neighborOrder_injective same).symm
    rcases mem_cons.mp mem with rfl | later
    · exact below
    · exact lt_of_lt_of_le below ((pairwise_cons.mp tail).1 e later)

/-! ### Edges in a tree -/

namespace IndexTree

/-- The numbers of an edge, seen from one of its ends. -/
def Seen (t : IndexTree V) (near far : EdgeParts → JsString) (e : EdgeParts) (i g h : Nat) : Prop :=
  t.nodeToGlobal.get (near e) = some g ∧ t.nodeToGlobal.get (far e) = some h ∧
    t.labels.get e.label = some i

/-- The store lists the edges of the set by one of their ends. -/
structure Reads (t : IndexTree V) (store : EdgeBitmaps) (near far : EdgeParts → JsString)
    (E : Set EdgeParts) : Prop where
  lists : ∀ i g h, h ∈ store.members (.label i, g) ↔ ∃ e ∈ E, t.Seen near far e i g h
  known : ∀ e ∈ E, ∃ i g h, t.Seen near far e i g h

theorem Holds.readsFwd {t : IndexTree V} (holds : t.Holds E) :
    t.Reads t.fwd EdgeParts.src EdgeParts.dst E where
  lists := by
    intro i g h
    rw [holds.fwd]
    exact exists_congr fun e => and_congr_right fun _ =>
      ⟨fun code => ⟨code.src, code.dst, code.label⟩, fun ⟨src, dst, label⟩ => ⟨src, dst, label⟩⟩
  known := by
    intro e mem
    obtain ⟨i, g, h, code⟩ := holds.known e mem
    exact ⟨i, g, h, code.src, code.dst, code.label⟩

theorem Holds.readsRev {t : IndexTree V} (holds : t.Holds E) :
    t.Reads t.rev EdgeParts.dst EdgeParts.src E where
  lists := by
    intro i h g
    rw [holds.rev]
    exact exists_congr fun e => and_congr_right fun _ =>
      ⟨fun code => ⟨code.dst, code.src, code.label⟩, fun ⟨dst, src, label⟩ => ⟨src, dst, label⟩⟩
  known := by
    intro e mem
    obtain ⟨i, g, h, code⟩ := holds.known e mem
    exact ⟨i, h, g, code.dst, code.src, code.label⟩

section Resolving

variable {t : IndexTree V} {store : EdgeBitmaps} {near far : EdgeParts → JsString}
  {E : Set EdgeParts} (numbered : t.Numbered) (reads : t.Reads store near far E)

include numbered reads

theorem mem_expandBitmap (found : t.nodeToGlobal.get x = some g)
    (stored : store.get (.label i, g) = some bitmap) :
    ⟨n, l⟩ ∈ t.expandBitmap (t.labelOf i) bitmap ↔ ∃ e ∈ E, near e = x ∧ far e = n ∧
      e.label = l ∧ t.labels.get l = some i := by
  have listed : ∀ h, h ∈ bitmap ↔ ∃ e ∈ E, t.Seen near far e i g h := by
    intro h
    rw [← reads.lists i g h, OrdMap.members, stored]
    rfl
  simp only [expandBitmap, mem_map, mem_filterMap, OrdSet.mem_toList, listed, NeighborEdge.mk.injEq]
  constructor
  · rintro ⟨y, ⟨h, ⟨e, member, atNear, atFar, label⟩, named⟩, rfl, rfl⟩
    have there := numbered.nodeOf_eq.mp named
    have same := numbered.labelOf_eq label
    exact ⟨e, member, numbered.nodes _ _ _ atNear found, numbered.nodes _ _ _ atFar there,
      same.symm, same ▸ label⟩
  · rintro ⟨e, member, rfl, rfl, rfl, label⟩
    obtain ⟨-, -, h, -, atFar, -⟩ := reads.known e member
    exact ⟨far e, ⟨h, ⟨e, member, found, atFar, label⟩, numbered.nodeOf_eq.mpr atFar⟩, rfl,
      numbered.labelOf_eq label⟩

omit reads in
theorem nodup_expandBitmap : (t.expandBitmap label bitmap).Nodup := by
  apply List.Nodup.map
  · intro a b same
    exact congrArg NeighborEdge.neighborId same
  · apply bitmap.nodup.filterMap
    intro g g' x left right
    have held := numbered.nodeOf_eq.mp left
    have held' := numbered.nodeOf_eq.mp right
    exact Option.some.inj (held.symm.trans held')

theorem mem_resolveAllLabels (g x) (found : t.nodeToGlobal.get x = some g) :
    ⟨n, l⟩ ∈ t.resolveAllLabels store g ↔
      ∃ e ∈ E, near e = x ∧ far e = n ∧ e.label = l := by
  simp only [resolveAllLabels, mem_flatMap]
  constructor
  · rintro ⟨⟨⟨bucket, owner⟩, bitmap⟩, member, listed⟩
    cases bucket with
    | all => cases listed
    | label i =>
      dsimp only at listed
      split at listed
      next same =>
        subst same
        have stored := (store.mem_entries_iff _).mp member
        obtain ⟨e, inside, atNear, atFar, label, -⟩ :=
          (mem_expandBitmap numbered reads found stored).mp listed
        exact ⟨e, inside, atNear, atFar, label⟩
      · cases listed
  · rintro ⟨e, member, rfl, rfl, rfl⟩
    obtain ⟨i, g', h, atNear, atFar, label⟩ := reads.known e member
    rw [found, Option.some.injEq] at atNear
    have bit := (reads.lists i g h).mpr ⟨e, member, found, atFar, label⟩
    cases stored : store.get (.label i, g) with
    | none => simp [OrdMap.members, stored] at bit
    | some bitmap =>
      refine ⟨((.label i, g), bitmap), (store.mem_entries_iff _).mpr stored, ?_⟩
      simp only [if_true]
      exact (mem_expandBitmap numbered reads found stored).mpr
        ⟨e, member, rfl, rfl, rfl, label⟩

theorem nodup_resolveAllLabels (g x) (found : t.nodeToGlobal.get x = some g) :
    (t.resolveAllLabels store g).Nodup := by
  rw [resolveAllLabels, nodup_flatMap]
  constructor
  · rintro ⟨⟨bucket, owner⟩, bitmap⟩ -
    cases bucket with
    | all => exact nodup_nil
    | label i =>
      dsimp only
      split
      · exact nodup_expandBitmap numbered
      · exact nodup_nil
  · -- bitmaps of one owner have different labels
    apply List.Pairwise.imp_of_mem ?_ (pairwise_map.mp store.nodup)
    rintro ⟨⟨bucket, owner⟩, bitmap⟩ ⟨⟨bucket', owner'⟩, bitmap'⟩ left right apart
    cases bucket with
    | all => exact disjoint_nil_left _
    | label i =>
      cases bucket' with
      | all => exact disjoint_nil_right _
      | label i' =>
        dsimp only [Function.onFun]
        split
        next same =>
          split
          next same' =>
            subst same
            subst same'
            rintro ⟨n, l⟩ one two
            have stored := (store.mem_entries_iff _).mp left
            have stored' := (store.mem_entries_iff _).mp right
            obtain ⟨-, -, -, -, -, label⟩ :=
              (mem_expandBitmap numbered reads found stored).mp one
            obtain ⟨-, -, -, -, -, label'⟩ :=
              (mem_expandBitmap numbered reads found stored').mp two
            have equal : i = i' := Option.some.inj (label.symm.trans label')
            exact apart (by rw [equal])
          · exact disjoint_nil_right _
        · exact disjoint_nil_left _

theorem mem_resolveFilteredEdges (g x) (found : t.nodeToGlobal.get x = some g)
    (allowed : List JsString) :
    ⟨n, l⟩ ∈ t.resolveFilteredEdges store g (allowed.filterMap t.labels.get) ↔
      (∃ e ∈ E, near e = x ∧ far e = n ∧ e.label = l) ∧ l ∈ allowed := by
  simp only [resolveFilteredEdges, mem_flatMap, mem_filterMap]
  constructor
  · rintro ⟨i, ⟨l', inside, number⟩, listed⟩
    split at listed
    · cases listed
    next bitmap stored =>
      obtain ⟨e, member, atNear, atFar, label, number'⟩ :=
        (mem_expandBitmap numbered reads found stored).mp listed
      rw [numbered.labels l l' i number' number]
      exact ⟨⟨e, member, atNear, atFar, label.trans (numbered.labels l l' i number' number)⟩, inside⟩
  · rintro ⟨⟨e, member, rfl, rfl, rfl⟩, inside⟩
    obtain ⟨i, g', h, atNear, atFar, label⟩ := reads.known e member
    rw [found, Option.some.injEq] at atNear
    have bit := (reads.lists i g h).mpr ⟨e, member, found, atFar, label⟩
    refine ⟨i, ⟨e.label, inside, label⟩, ?_⟩
    split
    next missing => simp [OrdMap.members, missing] at bit
    next bitmap stored =>
      exact (mem_expandBitmap numbered reads found stored).mpr
        ⟨e, member, rfl, rfl, rfl, label⟩

theorem nodup_resolveFilteredEdges (g x) (found : t.nodeToGlobal.get x = some g)
    {allowed : List JsString} (distinct : allowed.Nodup) :
    (t.resolveFilteredEdges store g (allowed.filterMap t.labels.get)).Nodup := by
  rw [resolveFilteredEdges, nodup_flatMap]
  constructor
  · intro i _
    split
    · exact nodup_nil
    · exact nodup_expandBitmap numbered
  · have ids : (allowed.filterMap t.labels.get).Nodup :=
      distinct.filterMap fun l l' i left right => numbered.labels l l' i left right
    apply List.Pairwise.imp ?_ ids
    rintro i i' apart ⟨n, l⟩ one two
    dsimp only at one two
    split at one
    · cases one
    next bitmap stored =>
      split at two
      · cases two
      next bitmap' stored' =>
        obtain ⟨-, -, -, -, -, label⟩ :=
          (mem_expandBitmap numbered reads found stored).mp one
        obtain ⟨-, -, -, -, -, label'⟩ :=
          (mem_expandBitmap numbered reads found stored').mp two
        exact apart (Option.some.inj (label.symm.trans label'))

/-- The numbers of the labels that a query allows. -/
abbrev labelIds (t : IndexTree V) (labels : Option (OrdSet JsString)) : Option (List Nat) :=
  labels.map fun labels => labels.toList.filterMap t.labels.get

theorem mem_getEdges (x) (labels) (n l) :
    ⟨n, l⟩ ∈ t.getEdges store x (labelIds t labels) ↔
      (∃ e ∈ E, near e = x ∧ far e = n ∧ e.label = l) ∧ ∀ allowed ∈ labels, l ∈ allowed := by
  unfold getEdges
  cases found : t.nodeToGlobal.get x with
  | none =>
    constructor
    · intro listed
      cases listed
    · rintro ⟨⟨e, member, rfl, -⟩, -⟩
      obtain ⟨-, g, -, atNear, -⟩ := reads.known e member
      rw [found] at atNear
      cases atNear
  | some g =>
    cases labels with
    | none => simpa using mem_resolveAllLabels numbered reads g x found
    | some labels =>
      simpa using mem_resolveFilteredEdges numbered reads g x found labels.toList

theorem nodup_getEdges (x) {labels} : (t.getEdges store x (labelIds t labels)).Nodup := by
  unfold getEdges
  cases found : t.nodeToGlobal.get x with
  | none => exact nodup_nil
  | some g =>
    cases labels with
    | none => exact nodup_resolveAllLabels numbered reads g x found
    | some labels =>
      exact nodup_resolveFilteredEdges numbered reads g x found labels.nodup

end Resolving

/-! ### Neighbours -/

theorem mem_adjacency (s : WarpState V) (near far) (x n l) :
    ⟨n, l⟩ ∈ adjacency s near far x ↔
      ∃ e ∈ visibleEdges s, near e = x ∧ far e = n ∧ e.label = l := by
  simp only [adjacency, mem_sortBy, mem_map, mem_filter, decide_eq_true_eq,
    NeighborEdge.mk.injEq, and_assoc]

theorem ascending_adjacency {s : WarpState V} (keyed : s.Keyed) {near far}
    (ends : ∀ e e', near e = near e' → far e = far e' → e.label = e'.label → e = e') :
    Ascending (adjacency s near far x) := by
  apply ascending_sortBy
  apply List.Nodup.map_on ?_ (((nodup_visibleEdges s keyed).of_map).filter _)
  intro e left e' right same
  simp only [mem_filter, decide_eq_true_eq] at left right
  simp only [NeighborEdge.mk.injEq] at same
  exact ends e e' (left.2.trans right.2.symm) same.1 same.2

theorem ends_out (e e' : EdgeParts) (src : e.src = e'.src) (dst : e.dst = e'.dst)
    (label : e.label = e'.label) : e = e' := by
  cases e
  cases e'
  simp_all

theorem sortedEdges_eq {t : IndexTree V} {s : WarpState V} (keyed : s.Keyed) (numbered : t.Numbered)
    {near far} (reads : t.Reads store near far {e | e ∈ visibleEdges s})
    (ends : ∀ e e', near e = near e' → far e = far e' → e.label = e'.label → e = e') (x) (labels) :
    sortBy neighborOrder (t.getEdges store x (labelIds t labels)) =
      filterByLabels (adjacency s near far x) labels := by
  apply Ascending.ext
  · exact ascending_sortBy _ (nodup_getEdges numbered reads x)
  · exact (ascending_adjacency keyed ends).filterByLabels labels
  · rintro ⟨n, l⟩
    rw [mem_sortBy, mem_getEdges numbered reads, mem_filterByLabels, mem_adjacency]
    rfl

/-- A tree that holds the visible edges of a state answers as its adjacency does. -/
theorem Holds.getNeighbors_eq {t : IndexTree V} {s : WarpState V} (keyed : s.Keyed)
    (holds : t.Holds {e | e ∈ visibleEdges s}) (x) (direction labels) :
    t.getNeighbors x direction labels = stateNeighbors s x direction labels := by
  have out := sortedEdges_eq keyed holds.toNumbered holds.readsFwd ends_out x labels
  have back := sortedEdges_eq keyed holds.toNumbered holds.readsRev
    (fun e e' dst src label => ends_out e e' src dst label) x labels
  -- the shortcut for labels without numbers gives the empty lists of the general case
  have shortcut : labelIds t labels = some [] → ∀ store, t.getEdges store x (some []) = [] := by
    intro _ store
    unfold getEdges
    split <;> rfl
  unfold IndexTree.getNeighbors
  dsimp only
  split
  next empty =>
    rw [show labelIds t labels = some [] from empty, shortcut empty] at out back
    cases direction with
    | out => exact out
    | incoming => exact back
    | both =>
      simp only [stateNeighbors, ← out, ← back]
      rw [show sortBy neighborOrder ([] : List NeighborEdge) = [] from rfl, mergeSorted]
  next some_ =>
    cases direction with
    | out => exact out
    | incoming => exact back
    | both =>
      apply Ascending.ext
      · exact ascending_dedupSorted _ (pairwise_sortBy _ _)
      · exact ((ascending_adjacency keyed ends_out).filterByLabels labels).mergeSorted
          ((ascending_adjacency keyed (fun e e' dst src label => ends_out e e' src dst label)).filterByLabels labels)
      · intro e
        rw [mem_dedupSorted, mem_sortBy, mem_append, stateNeighbors, mem_mergeSorted, ← out,
          ← back, mem_sortBy, mem_sortBy]

end IndexTree
end GitWarp
