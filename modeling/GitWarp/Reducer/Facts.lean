import Mathlib.Data.Set.Insert
import Mathlib.Order.MinMax
import GitWarp.Reducer.JoinReducer

/-!
# A state as a set of facts

What a replica knows is a set of facts: which dots tag which elements, which
dots are tombstoned, which property writes and edge births happened, and which
counters were seen. A state *represents* such a set: its OR-Sets list the tags
and tombstones, its registers hold the winning writes and its frontier the
greatest counters. Operations insert facts and join unites them, so whatever a
state represents depends neither on the order nor on the repetition of patches.
-/
namespace GitWarp

open Js Lib KeyCodec ORSet VersionVector WarpState

variable {V : Type}

inductive Fact (V : Type)
  | nodeTag (element dot : JsString)
  | nodeTomb (dot : JsString)
  | edgeTag (element dot : JsString)
  | edgeTomb (dot : JsString)
  | write (key : JsString) (register : LWWRegister V)
  | birth (edgeKey : JsString) (eventId : EventId)
  | seen (writer : JsString) (counter : Nat)

/-- The facts an operation adds. -/
def Op.facts (eventId : EventId) : Op V → Set (Fact V)
  | .nodeAdd node dot => {.nodeTag node dot.encode}
  | .nodeRemove _ observedDots => {f | ∃ d ∈ observedDots, f = .nodeTomb d}
  | .edgeAdd src dst label dot =>
    {.edgeTag (encodeEdgeKey src dst label) dot.encode,
      .birth (encodeEdgeKey src dst label) eventId}
  | .edgeRemove _ _ _ observedDots => {f | ∃ d ∈ observedDots, f = .edgeTomb d}
  | .nodePropSet node key value => {.write (encodePropKey node key) ⟨eventId, value⟩}
  | .edgePropSet src dst label key value =>
    {.write (encodeEdgePropKey src dst label key) ⟨eventId, value⟩}
  | .blobValue _ _ => ∅

theorem nodeTag_mem_facts {op : Op V} :
    .nodeTag x d ∈ op.facts e ↔ ∃ dot, op = .nodeAdd x dot ∧ d = dot.encode := by
  cases op with
  | nodeAdd node dot =>
    simp only [Op.facts, Set.mem_singleton_iff, Fact.nodeTag.injEq, Op.nodeAdd.injEq]
    constructor
    · rintro ⟨rfl, rfl⟩
      exact ⟨dot, ⟨rfl, rfl⟩, rfl⟩
    · rintro ⟨_, ⟨rfl, rfl⟩, rfl⟩
      exact ⟨rfl, rfl⟩
  | nodeRemove node dots | edgeAdd src dst label dot | edgeRemove src dst label dots
  | nodePropSet node key value | edgePropSet src dst label key value | blobValue node oid =>
    simp [Op.facts]

theorem edgeTag_mem_facts {op : Op V} :
    .edgeTag k d ∈ op.facts e ↔ ∃ src dst label dot, op = .edgeAdd src dst label dot ∧
      k = encodeEdgeKey src dst label ∧ d = dot.encode := by
  cases op with
  | edgeAdd src dst label dot =>
    simp only [Op.facts, Set.mem_insert_iff, Fact.edgeTag.injEq, Set.mem_singleton_iff,
      reduceCtorEq, or_false, Op.edgeAdd.injEq]
    constructor
    · rintro ⟨rfl, rfl⟩
      exact ⟨src, dst, label, dot, ⟨rfl, rfl, rfl, rfl⟩, rfl, rfl⟩
    · rintro ⟨_, _, _, _, ⟨rfl, rfl, rfl, rfl⟩, rfl, rfl⟩
      exact ⟨rfl, rfl⟩
  | nodeAdd node dot | nodeRemove node dots | edgeRemove src dst label dots
  | nodePropSet node key value | edgePropSet src dst label key value | blobValue node oid =>
    simp [Op.facts]

theorem nodeTomb_mem_facts {op : Op V} :
    .nodeTomb d ∈ op.facts e ↔ ∃ node dots, op = .nodeRemove node dots ∧ d ∈ dots := by
  cases op with
  | nodeRemove node dots | _ => simp [Op.facts]

theorem edgeTomb_mem_facts (op : Op V) (e d) :
    .edgeTomb d ∈ op.facts e ↔ ∃ src dst label dots, op = .edgeRemove src dst label dots ∧
      d ∈ dots := by
  cases op with
  | edgeRemove src dst label dots | _ => simp [Op.facts]

/-- `s` holds exactly what the facts `F` say, with the winners of `F` in its registers. -/
structure Represents (s : WarpState V) (F : Set (Fact V)) : Prop where
  nodeTags : ∀ x d, d ∈ s.nodeAlive.dotsOf x ↔ .nodeTag x d ∈ F
  nodeTombs : ∀ d, d ∈ s.nodeAlive.tombstones ↔ .nodeTomb d ∈ F
  edgeTags : ∀ x d, d ∈ s.edgeAlive.dotsOf x ↔ .edgeTag x d ∈ F
  edgeTombs : ∀ d, d ∈ s.edgeAlive.tombstones ↔ .edgeTomb d ∈ F
  writes : ∀ k, Winner LWWRegister.eventId (fun r => .write k r ∈ F) (s.prop.get k)
  births : ∀ k, Winner id (fun e => .birth k e ∈ F) (s.edgeBirthEvent.get k)
  seen : ∀ w n, n ≤ s.observedFrontier.counter w ↔ n = 0 ∨ ∃ m, n ≤ m ∧ .seen w m ∈ F

/-- The facts that a state holds by itself. -/
def WarpState.facts (s : WarpState V) : Set (Fact V)
  | .nodeTag x d => d ∈ s.nodeAlive.dotsOf x
  | .nodeTomb d => d ∈ s.nodeAlive.tombstones
  | .edgeTag x d => d ∈ s.edgeAlive.dotsOf x
  | .edgeTomb d => d ∈ s.edgeAlive.tombstones
  | .write k r => s.prop.get k = some r
  | .birth k e => s.edgeBirthEvent.get k = some e
  | .seen w n => n = s.observedFrontier.counter w

theorem represents_facts (s : WarpState V) : Represents s s.facts where
  nodeTags := fun _ _ => Iff.rfl
  nodeTombs := fun _ => Iff.rfl
  edgeTags := fun _ _ => Iff.rfl
  edgeTombs := fun _ => Iff.rfl
  writes := fun k => by
    cases found : s.prop.get k with
    | none => exact fun r present => absurd (found.symm.trans present) (by simp)
    | some r =>
      refine ⟨found, fun r' present => ?_⟩
      have same : some r = some r' := found.symm.trans present
      cases same
      exact le_refl _
  births := fun k => by
    cases found : s.edgeBirthEvent.get k with
    | none => exact fun e present => absurd (found.symm.trans present) (by simp)
    | some e =>
      refine ⟨found, fun e' present => ?_⟩
      have same : some e = some e' := found.symm.trans present
      cases same
      exact le_refl _
  seen := fun w n => by
    constructor
    · exact fun le => Or.inr ⟨_, le, rfl⟩
    · rintro (rfl | ⟨m, le, rfl⟩)
      · exact Nat.zero_le _
      · exact le

theorem represents_empty : Represents (WarpState.empty : WarpState V) ∅ where
  nodeTags := by simp [WarpState.empty]
  nodeTombs := by simp [WarpState.empty, ORSet.empty]
  edgeTags := by simp [WarpState.empty]
  edgeTombs := by simp [WarpState.empty, ORSet.empty]
  writes := fun _ _ absent => absent
  births := fun _ _ absent => absent
  seen := by simp [WarpState.empty]

/-- Joining states unites the facts they represent. -/
theorem Represents.join {F G : Set (Fact V)} (left : Represents s F) (right : Represents t G) :
    Represents (s.join t) (F ∪ G) where
  nodeTags := fun x d => by
    rw [WarpState.join, mem_dotsOf_join, left.nodeTags, right.nodeTags, Set.mem_union]
  nodeTombs := fun d => by
    rw [WarpState.join, mem_tombstones_join, left.nodeTombs, right.nodeTombs, Set.mem_union]
  edgeTags := fun x d => by
    rw [WarpState.join, mem_dotsOf_join, left.edgeTags, right.edgeTags, Set.mem_union]
  edgeTombs := fun d => by
    rw [WarpState.join, mem_tombstones_join, left.edgeTombs, right.edgeTombs, Set.mem_union]
  writes := fun k => by
    rw [WarpState.join, get_mergeProps _ t.prop.nodup]
    exact (left.writes k).later (right.writes k)
  births := fun k => by
    rw [WarpState.join, get_mergeEdgeBirthEvent _ t.edgeBirthEvent.nodup]
    exact (left.births k).later (right.births k)
  seen := fun w n => by
    rw [WarpState.join, counter_merge, le_max_iff, left.seen, right.seen]
    constructor
    · rintro ((zero | ⟨m, le, mem⟩) | zero | ⟨m, le, mem⟩)
      · exact Or.inl zero
      · exact Or.inr ⟨m, le, Or.inl mem⟩
      · exact Or.inl zero
      · exact Or.inr ⟨m, le, Or.inr mem⟩
    · rintro (zero | ⟨m, le, mem | mem⟩)
      · exact Or.inl (Or.inl zero)
      · exact Or.inl (Or.inr ⟨m, le, mem⟩)
      · exact Or.inr (Or.inr ⟨m, le, mem⟩)

/-- No two different property writes in `F` carry one event. -/
def OneWritePerEvent (F : Set (Fact V)) : Prop :=
  ∀ k, Stamped LWWRegister.eventId fun r => .write k r ∈ F

theorem Represents.equiv {F : Set (Fact V)} (distinct : OneWritePerEvent F) (left : Represents s F)
    (right : Represents t F) : s.Equiv t where
  nodeAlive := (equiv_iff _).mpr
    ⟨fun x d => (left.nodeTags x d).trans (right.nodeTags x d).symm,
      fun d => (left.nodeTombs d).trans (right.nodeTombs d).symm⟩
  edgeAlive := (equiv_iff _).mpr
    ⟨fun x d => (left.edgeTags x d).trans (right.edgeTags x d).symm,
      fun d => (left.edgeTombs d).trans (right.edgeTombs d).symm⟩
  prop := fun k => (left.writes k).unique (distinct k) (right.writes k)
  observedFrontier := (equiv_iff_counter _ _).mpr fun w =>
    Nat.le_antisymm ((right.seen w _).mpr ((left.seen w _).mp (Nat.le_refl _)))
      ((left.seen w _).mpr ((right.seen w _).mp (Nat.le_refl _)))
  edgeBirthEvent := fun k => (left.births k).unique (fun _ _ _ _ same => same) (right.births k)

variable {s : WarpState V} {F : Set (Fact V)}

theorem Represents.of_equiv (same : s.Equiv t) (represents : Represents t F) : Represents s F := by
  obtain ⟨nodes, nodeTombs⟩ := (equiv_iff _).mp same.nodeAlive
  obtain ⟨edges, edgeTombs⟩ := (equiv_iff _).mp same.edgeAlive
  have counters := (equiv_iff_counter _ _).mp same.observedFrontier
  constructor
  · exact fun x d => (nodes x d).trans (represents.nodeTags x d)
  · exact fun d => (nodeTombs d).trans (represents.nodeTombs d)
  · exact fun x d => (edges x d).trans (represents.edgeTags x d)
  · exact fun d => (edgeTombs d).trans (represents.edgeTombs d)
  · intro k
    rw [same.prop k]
    exact represents.writes k
  · intro k
    rw [same.edgeBirthEvent k]
    exact represents.births k
  · intro w n
    rw [counters w]
    exact represents.seen w n

theorem WarpState.Equiv.refl (s : WarpState V) : s.Equiv s where
  nodeAlive := (equiv_iff _).mpr ⟨fun _ _ => Iff.rfl, fun _ => Iff.rfl⟩
  edgeAlive := (equiv_iff _).mpr ⟨fun _ _ => Iff.rfl, fun _ => Iff.rfl⟩
  prop := OrdMap.Equiv.refl s.prop
  observedFrontier := OrdMap.Equiv.refl s.observedFrontier.entries
  edgeBirthEvent := OrdMap.Equiv.refl s.edgeBirthEvent

/-! ### One operation -/

section

variable (before : Represents s F)
include before

theorem Represents.withNodes (only : ∀ f ∈ G, (∃ x d, f = .nodeTag x d) ∨ ∃ d, f = .nodeTomb d)
    (tags : ∀ x d, d ∈ nodes.dotsOf x ↔ d ∈ s.nodeAlive.dotsOf x ∨ .nodeTag x d ∈ G)
    (tombs : ∀ d, d ∈ nodes.tombstones ↔ d ∈ s.nodeAlive.tombstones ∨ .nodeTomb d ∈ G) :
    Represents { s with nodeAlive := nodes } (F ∪ G) := by
  have kept : ∀ f, (∀ x d, f ≠ .nodeTag x d) → (∀ d, f ≠ .nodeTomb d) → (f ∈ F ∪ G ↔ f ∈ F) := by
    intro f notTag notTomb
    have absent : f ∉ G := fun mem =>
      (only f mem).elim (fun ⟨x, d, same⟩ => notTag x d same) (fun ⟨d, same⟩ => notTomb d same)
    simp [absent]
  exact {
    nodeTags := fun x d => by rw [tags, before.nodeTags, Set.mem_union]
    nodeTombs := fun d => by rw [tombs, before.nodeTombs, Set.mem_union]
    edgeTags := fun x d => by rw [kept _ (by simp) (by simp), before.edgeTags]
    edgeTombs := fun d => by rw [kept _ (by simp) (by simp), before.edgeTombs]
    writes := fun k => (before.writes k).congr fun r => (kept _ (by simp) (by simp)).symm
    births := fun k => (before.births k).congr fun e => (kept _ (by simp) (by simp)).symm
    seen := fun w n => by simp only [before.seen, kept (.seen w _) (by simp) (by simp)] }

theorem Represents.withEdges {edges births}
    (only : ∀ f ∈ G, (∃ x d, f = .edgeTag x d) ∨ (∃ d, f = .edgeTomb d) ∨ ∃ k e, f = .birth k e)
    (tags : ∀ x d, d ∈ edges.dotsOf x ↔ d ∈ s.edgeAlive.dotsOf x ∨ .edgeTag x d ∈ G)
    (tombs : ∀ d, d ∈ edges.tombstones ↔ d ∈ s.edgeAlive.tombstones ∨ .edgeTomb d ∈ G)
    (wins : ∀ k, Winner id (fun e => .birth k e ∈ F ∨ .birth k e ∈ G) (births.get k)) :
    Represents { s with edgeAlive := edges, edgeBirthEvent := births } (F ∪ G) := by
  -- replacing the edge set and the births adds facts about edges and no other fact
  have kept : ∀ f, (∀ x d, f ≠ .edgeTag x d) → (∀ d, f ≠ .edgeTomb d) →
      (∀ k e, f ≠ .birth k e) → (f ∈ F ∪ G ↔ f ∈ F) := by
    intro f notTag notTomb notBirth
    have absent : f ∉ G := by
      intro mem
      rcases only f mem with ⟨x, d, same⟩ | ⟨d, same⟩ | ⟨k, e, same⟩
      · exact notTag x d same
      · exact notTomb d same
      · exact notBirth k e same
    simp [absent]
  exact {
    nodeTags := fun x d => by rw [kept _ (by simp) (by simp) (by simp), before.nodeTags]
    nodeTombs := fun d => by rw [kept _ (by simp) (by simp) (by simp), before.nodeTombs]
    edgeTags := fun x d => by rw [tags, before.edgeTags, Set.mem_union]
    edgeTombs := fun d => by rw [tombs, before.edgeTombs, Set.mem_union]
    writes := fun k =>
      (before.writes k).congr fun r => (kept _ (by simp) (by simp) (by simp)).symm
    births := wins
    seen := fun w n => by simp only [before.seen, kept (.seen w _) (by simp) (by simp) (by simp)] }

theorem Represents.mutatePropLWW :
    Represents (s.mutatePropLWW key eventId value) (F ∪ {.write key ⟨eventId, value⟩}) := by
  obtain ⟨nodes, edges, frontier, births⟩ := s.mutatePropLWW_frame key eventId value
  exact {
    nodeTags := by simp [nodes, before.nodeTags]
    nodeTombs := by simp [nodes, before.nodeTombs]
    edgeTags := by simp [edges, before.edgeTags]
    edgeTombs := by simp [edges, before.edgeTombs]
    writes := fun k => by
      rw [get_mutatePropLWW]
      split
      next same =>
        subst same
        refine ((before.writes key).later winner_single).congr fun r => ?_
        simp [or_comm]
      next other => exact (before.writes k).congr fun r => by simp [Ne.symm other]
    births := by
      rw [births]
      exact fun k => (before.births k).congr fun e => by simp
    seen := by simp [frontier, before.seen] }

/-- An operation adds exactly its own facts. -/
theorem Represents.mutate (op : Op V) (eventId) :
    Represents (op.mutate s eventId) (F ∪ op.facts eventId) := by
  cases op with
  | nodeAdd node dot =>
    exact before.withNodes (by simp [Op.facts]) (by simp [Op.facts]) (by simp [Op.facts])
  | nodeRemove node observedDots =>
    refine before.withNodes ?_ (by simp [Op.facts]) (by simp [Op.facts])
    rintro f ⟨d, -, rfl⟩
    exact Or.inr ⟨d, rfl⟩
  | edgeAdd src dst label dot =>
    refine before.withEdges (by simp [Op.facts]) (by simp [Op.facts]) (by simp [Op.facts]) ?_
    intro k
    rw [get_bumpBirthEvent]
    split
    next same =>
      subst same
      exact ((before.births _).later winner_single).congr fun e => by simp [Op.facts]
    next other => exact (before.births k).congr fun e => by simp [Op.facts, Ne.symm other]
  | edgeRemove src dst label observedDots =>
    refine before.withEdges ?_ (by simp [Op.facts]) (by simp [Op.facts]) ?_
    · rintro f ⟨d, -, rfl⟩
      exact Or.inr (Or.inl ⟨d, rfl⟩)
    · exact fun k => (before.births k).congr fun e => by simp [Op.facts]
  | nodePropSet node key value | edgePropSet src dst label key value =>
    exact before.mutatePropLWW
  | blobValue node oid =>
    rw [Op.facts, Set.union_empty]
    exact before

end

end GitWarp
