import GitWarp.Index.Updating

/-!
# Trees that reflect a state

A tree reflects a state when it holds the visible edges, the alive nodes and the
properties of the nodes it knows. The builder makes such trees, and a tracked
diff carries one to the next state, as long as it says enough.
-/
namespace GitWarp

open Js Lib KeyCodec List

variable {V : Type}

/-- The value of a node's property. -/
def WarpState.nodeProperty (s : WarpState V) (node key : JsString) : Option V :=
  (s.prop.get (encodePropKey node key)).map LWWRegister.value

variable {s : WarpState V} {t : IndexTree V}

namespace IndexTree

/-! ### Properties -/

def property (t : IndexTree V) (node key : JsString) : Option V :=
  (t.props.get node).bind fun bag => bag.get key

theorem property_addProperty (t : IndexTree V) (node key) (value : V) (x k) :
    (t.addProperty node key value).property x k =
      if node = x ∧ key = k then some value else t.property x k := by
  simp only [property, addProperty, OrdMap.get_set]
  by_cases here : node = x
  · subst here
    simp only [if_true, Option.bind_some, OrdMap.get_set, true_and]
    split
    · rfl
    · cases t.props.get node <;> simp
  · simp [here]

theorem property_foldl {A : Type} (node key : A → JsString) (value) (items : List A)
    (t : IndexTree V) (x k) :
    (items.foldl (fun t a => t.addProperty (node a) (key a) (value a)) t).property x k =
      ((items.filter fun a => node a = x ∧ key a = k).getLast?.map value).or
        (t.property x k) := by
  induction items generalizing t with
  | nil => rfl
  | cons a rest ih =>
    rw [foldl_cons, ih, property_addProperty]
    by_cases here : node a = x ∧ key a = k
    · rw [filter_cons_of_pos (by simpa using here), List.getLast?_cons, if_pos here]
      cases (rest.filter fun a => node a = x ∧ key a = k).getLast? <;> rfl
    · rw [filter_cons_of_neg (by simpa using here), if_neg here]

theorem foldl_addProperty {A : Type} {node key : A → JsString} {value : A → V} {items : List A}
    (t : IndexTree V) :
    ∃ props, items.foldl (fun t a => t.addProperty (node a) (key a) (value a)) t =
      { t with props := props } := by
  induction items generalizing t with
  | nil => exact ⟨t.props, rfl⟩
  | cons a rest ih =>
    obtain ⟨props, same⟩ := ih (t.addProperty (node a) (key a) (value a))
    exact ⟨props, by rw [foldl_cons, same]; rfl⟩

theorem Holds.withProps (holds : t.Holds E) {props} :
    ({ t with props := props } : IndexTree V).Holds E :=
  holds.relink rfl rfl rfl holds.known holds.fwd holds.rev

/-- Every bag belongs to a name that the reader accepts and is not empty. -/
structure PropsSound (t : IndexTree V) : Prop where
  node : ∀ x bag, t.props.get x = some bag → ValidId x
  key : ∀ x bag k, t.props.get x = some bag → (bag.get k).isSome = true → ValidId k
  filled : ∀ x bag, t.props.get x = some bag → ∃ k, (bag.get k).isSome = true

theorem PropsSound.addProperty (sound : t.PropsSound) {node key} (value : V)
    (validNode : ValidId node) (validKey : ValidId key) :
    (t.addProperty node key value).PropsSound := by
  have bags : ∀ x bag, (t.addProperty node key value).props.get x = some bag →
      (x = node ∧ bag = ((t.props.get node).getD .empty).set key value) ∨
        t.props.get x = some bag := by
    intro x bag found
    simp only [IndexTree.addProperty, OrdMap.get_set] at found
    split at found
    next same => exact Or.inl ⟨same.symm, (Option.some.inj found).symm⟩
    next other => exact Or.inr found
  refine ⟨fun x bag found => ?_, fun x bag k found held => ?_, fun x bag found => ?_⟩
  · rcases bags x bag found with ⟨rfl, -⟩ | old
    · exact validNode
    · exact sound.node x bag old
  · rcases bags x bag found with ⟨rfl, rfl⟩ | old
    · rw [OrdMap.get_set] at held
      split at held
      next same => exact same ▸ validKey
      next other =>
        cases kept : t.props.get x with
        | none => simp [kept] at held
        | some before => exact sound.key x before k kept (by simpa [kept] using held)
    · exact sound.key x bag k old held
  · rcases bags x bag found with ⟨rfl, rfl⟩ | old
    · exact ⟨key, by simp⟩
    · exact sound.filled x bag old

theorem PropsSound.foldl {A : Type} {node key : A → JsString} (value : A → V) {items : List A}
    (t : IndexTree V) (sound : t.PropsSound)
    (valid : ∀ a ∈ items, ValidId (node a) ∧ ValidId (key a)) :
    (items.foldl (fun t a => t.addProperty (node a) (key a) (value a)) t).PropsSound := by
  induction items generalizing t with
  | nil => exact sound
  | cons a rest ih =>
    obtain ⟨validNode, validKey⟩ := valid a mem_cons_self
    exact ih _ (sound.addProperty _ validNode validKey)
      (forall_mem_cons.mp valid).2

theorem isIndexableName_of_valid (text) (valid : ValidId text) : isIndexableName text = true := by
  simp [isIndexableName, valid.nonempty, valid.separated]

theorem PropsSound.decodePropertyShard (sound : t.PropsSound) (shard) (entries)
    (inside : ∀ e ∈ entries, e ∈ t.props.entries) : decodePropertyShard shard entries = .ok () := by
  induction entries with
  | nil => rfl
  | cons entry rest ih =>
    obtain ⟨x, bag⟩ := entry
    have found := (t.props.mem_entries_iff x).mp (inside _ mem_cons_self)
    have keys : bag.keys.all isIndexableName = true := by
      rw [all_eq_true]
      intro k mem
      exact isIndexableName_of_valid k (sound.key x bag k found ((bag.mem_keys_iff k).mp mem))
    rw [IndexTree.decodePropertyShard, isIndexableName_of_valid x (sound.node x bag found), keys]
    exact ih (forall_mem_cons.mp inside).2

theorem PropsSound.getNodeProps (sound : t.PropsSound) :
    t.getNodeProps x = .ok (t.props.get x) := by
  rw [IndexTree.getNodeProps, sound.decodePropertyShard _ _ fun e mem =>
    (mem_filter.mp mem).1]
  rfl

def SameBag : Option (OrdMap JsString V) → Option (OrdMap JsString V) → Prop
  | none, none => True
  | some bag, some bag' => bag.Equiv bag'
  | _, _ => False

theorem PropsSound.sameBag {t' : IndexTree V} (left : t.PropsSound) (right : t'.PropsSound) (x)
    (same : ∀ k, t.property x k = t'.property x k) : SameBag (t.props.get x) (t'.props.get x) := by
  cases here : t.props.get x with
  | none =>
    cases there : t'.props.get x with
    | none => trivial
    | some bag =>
      obtain ⟨k, held⟩ := right.filled x bag there
      have value := same k
      simp only [property, here, there, Option.bind_none, Option.bind_some] at value
      simp [← value] at held
  | some bag =>
    cases there : t'.props.get x with
    | none =>
      obtain ⟨k, held⟩ := left.filled x bag here
      have value := same k
      simp only [property, here, there, Option.bind_none, Option.bind_some] at value
      simp [value] at held
    | some bag' =>
      intro k
      simpa [property, here, there] using same k

/-! ### Reflecting a state -/

structure Reflects (t : IndexTree V) (s : WarpState V) : Prop where
  edges : t.Holds {e | e ∈ visibleEdges s}
  alive : ∀ x, t.isAlive x = visibleNode s x
  valid : ∀ x, (t.nodeToGlobal.get x).isSome = true → ValidId x
  sound : t.PropsSound
  props : ∀ x k, (t.nodeToGlobal.get x).isSome = true → ValidId k →
    t.property x k = s.nodeProperty x k

/-- What the readers of two indexes see: liveness, neighbours in every direction and under
every choice of labels, and the properties of alive nodes. -/
structure SameAnswers (t t' : IndexTree V) : Prop where
  alive : ∀ x, t.isAlive x = t'.isAlive x
  neighbors : ∀ x direction labels,
    t.getNeighbors x direction labels = t'.getNeighbors x direction labels
  props : ∀ x, t'.isAlive x = true → ∃ bag bag', t.getNodeProps x = .ok bag ∧
    t'.getNodeProps x = .ok bag' ∧ SameBag bag bag'

theorem numbered_of_isAlive (t : IndexTree V) (alive : t.isAlive x = true) :
    (t.nodeToGlobal.get x).isSome = true := by
  obtain ⟨g, found, -⟩ := (t.isAlive_iff x).mp alive
  simp [found]

theorem Reflects.sameAnswers (keyed : s.Keyed) (left : t.Reflects s) (right : t'.Reflects s) :
    t.SameAnswers t' where
  alive := fun x => (left.alive x).trans (right.alive x).symm
  neighbors := fun x direction labels => (left.edges.getNeighbors_eq keyed x direction labels).trans
    (right.edges.getNeighbors_eq keyed x direction labels).symm
  props := by
    intro x alive
    refine ⟨_, _, left.sound.getNodeProps, right.sound.getNodeProps, ?_⟩
    apply left.sound.sameBag right.sound x
    intro k
    have here := numbered_of_isAlive t (by rw [left.alive, ← right.alive]; exact alive)
    by_cases valid : ValidId k
    · rw [left.props x k here valid, right.props x k (numbered_of_isAlive t' alive) valid]
    · -- neither tree has a value under a key that is no identifier
      have none_ : ∀ u : IndexTree V, u.PropsSound → u.property x k = none := by
        intro u sound
        cases bag : u.props.get x with
        | none => simp [property, bag]
        | some found =>
          by_contra some_
          apply valid
          apply sound.key x found k bag
          rw [Option.isSome_iff_ne_none]
          simpa [property, bag] using some_
      rw [none_ t left.sound, none_ t' right.sound]

/-! ### Building -/

theorem mem_visibleEdges (keyed : s.Keyed) (e) :
    e ∈ visibleEdges s ↔ (ValidId e.src ∧ ValidId e.dst ∧ ValidId e.label) ∧
      s.edgeAlive.contains (PatchDiff.edgeKey e) = true ∧ visibleNode s e.src = true ∧
        visibleNode s e.dst = true := by
  constructor
  · intro mem
    obtain ⟨k, inside, rfl⟩ := mem_map.mp mem
    have visible := (mem_filter.mp inside).2
    obtain ⟨src, dst, label, validSrc, validDst, validLabel, rfl⟩ :=
      visibleEdge_isEdgeKey s keyed visible
    have decoded := decodeEdgeKey_encodeEdgeKey validSrc validDst validLabel
    simp only [visibleEdge, Bool.and_eq_true, decoded] at visible
    simp only [decoded, PatchDiff.edgeKey]
    exact ⟨⟨validSrc, validDst, validLabel⟩, visible.1.1, visible.1.2, visible.2⟩
  · rintro ⟨⟨validSrc, validDst, validLabel⟩, alive, src, dst⟩
    have decoded := decodeEdgeKey_encodeEdgeKey validSrc validDst validLabel
    have visible : visibleEdge s (PatchDiff.edgeKey e) = true := by
      simp only [visibleEdge, Bool.and_eq_true, PatchDiff.edgeKey, decoded]
      exact ⟨⟨alive, src⟩, dst⟩
    have key : IsEdgeKey (PatchDiff.edgeKey e) :=
      ⟨e.src, e.dst, e.label, validSrc, validDst, validLabel, rfl⟩
    have mem := (mem_visibleEdges_iff s keyed key).mpr visible
    rwa [PatchDiff.edgeKey, decoded] at mem

theorem isAlive_empty (x) : (empty : IndexTree V).isAlive x = false := rfl

theorem mem_elements_sorted : x ∈ sortBy id s.nodeAlive.elements ↔ visibleNode s x = true := by
  rw [mem_sortBy, ORSet.mem_elements_iff]
  rfl

theorem last_visibleProp (keyed : s.Keyed) (alive : visibleNode s x = true) (valid : ValidId k) :
    ((visibleProps s).filter fun p => p.node = x ∧ p.key = k).getLast?.map NodeProp.value =
      s.nodeProperty x k := by
  have validNode : ValidId x := by
    obtain ⟨d, tagged, -⟩ := s.nodeAlive.contains_iff.mp alive
    exact keyed.nodes x d tagged
  cases last : ((visibleProps s).filter fun p => p.node = x ∧ p.key = k).getLast? with
  | some p =>
    have mem := mem_of_getLast? last
    simp only [mem_filter, decide_eq_true_eq] at mem
    obtain ⟨listed, rfl, rfl⟩ := mem
    obtain ⟨-, -, -, r, found, value⟩ := (mem_visibleProps_iff s keyed p).mp listed
    simp [WarpState.nodeProperty, found, value]
  | none =>
    rw [List.getLast?_eq_none_iff, filter_eq_nil_iff] at last
    cases found : s.prop.get (encodePropKey x k) with
    | none => simp [WarpState.nodeProperty, found]
    | some r =>
      have listed := (mem_visibleProps_iff s keyed ⟨x, k, r.value⟩).mpr
        ⟨validNode, valid, alive, r, found, rfl⟩
      exact absurd (by simp) (last _ listed)

theorem addProperties_reflects (keyed : s.Keyed) (t : IndexTree V)
    (holds : t.Holds {e | e ∈ visibleEdges s}) (alive : ∀ x, t.isAlive x = visibleNode s x)
    (number : ∀ x, (t.nodeToGlobal.get x).isSome = true → visibleNode s x = true)
    (bare : t.props = .empty) :
    ((visibleProps s).foldl (fun t prop => t.addProperty prop.node prop.key prop.value) t).Reflects
      s := by
  obtain ⟨props, onlyProps⟩ := foldl_addProperty t
  have sound := PropsSound.foldl NodeProp.value t
    (by constructor <;> simp [bare])
    fun p mem => by
      obtain ⟨validNode, validKey, -⟩ := (mem_visibleProps_iff s keyed p).mp mem
      exact ⟨validNode, validKey⟩
  have read := property_foldl NodeProp.node NodeProp.key NodeProp.value (visibleProps s) t
  rw [onlyProps] at sound read ⊢
  refine ⟨holds.withProps, alive, fun x present => ?_, sound, fun x k present valid => ?_⟩
  · obtain ⟨d, tagged, -⟩ := s.nodeAlive.contains_iff.mp (number x present)
    exact keyed.nodes x d tagged
  · have none_ : t.property x k = none := by simp [property, bare]
    rw [read, none_, Option.or_none]
    exact last_visibleProp keyed (number x present) valid

structure Linked (t : IndexTree V) (s : WarpState V) : Prop where
  holds : t.Holds {e | e ∈ visibleEdges s}
  alive : ∀ x, t.isAlive x = visibleNode s x
  number : ∀ x, (t.nodeToGlobal.get x).isSome = true → visibleNode s x = true
  bare : t.props = .empty

theorem build_linked (keyed : s.Keyed) (t) (built : build s = .ok t) :
    ∃ linked : IndexTree V, linked.Linked s ∧
      t = (visibleProps s).foldl (fun t prop => t.addProperty prop.node prop.key prop.value)
        linked := by
  obtain ⟨registered, nodes, rest⟩ := bind_eq_ok.mp built
  cases rest
  obtain ⟨holds, adds⟩ := holds_empty.handleNodeAdds _ _ ((registerNodes_ok_iff _ _).mp nodes)
  have alive : ∀ x, registered.isAlive x = true ↔ visibleNode s x = true := by
    intro x
    rw [adds.alive, isAlive_empty, mem_elements_sorted]
    simp
  have dense : registered.Dense := ⟨by rw [adds.labels]; simp [empty]⟩
  obtain ⟨labelled, sameNodes, known⟩ := holds.registerLabels
    (sortBy id (OrdSet.ofList ((sortBy edgeOrder (visibleEdges s)).map EdgeParts.label)).toList)
    registered dense
  obtain ⟨linked, sameAgain⟩ := labelled.addEdges (sortBy edgeOrder (visibleEdges s)) _ _ (by
    intro e mem
    rw [mem_sortBy] at mem
    obtain ⟨-, -, src, dst⟩ := (mem_visibleEdges keyed e).mp mem
    rw [sameNodes.nodes]
    refine ⟨numbered_of_isAlive _ ((alive _).mpr src), numbered_of_isAlive _ ((alive _).mpr dst),
      known _ (Or.inr ?_)⟩
    rw [mem_sortBy, OrdSet.mem_toList, OrdSet.mem_ofList]
    exact mem_map_of_mem ((mem_sortBy _ _ _).mpr mem))
  have same := sameNodes.trans sameAgain
  refine ⟨_, ⟨?_, ?_, ?_, ?_⟩, rfl⟩
  · exact linked.congr fun e => by simp
  · intro x
    rw [Bool.eq_iff_iff, same.isAlive, alive]
  · intro x present
    rw [same.nodes] at present
    rcases (adds.numbered x).mp present with old | new
    · simp [empty] at old
    · exact mem_elements_sorted.mp new
  · rw [same.props, adds.props]
    rfl

theorem build_reflects (keyed : s.Keyed) (t) (built : build s = .ok t) : t.Reflects s := by
  obtain ⟨linked, phase, rfl⟩ := build_linked keyed t built
  exact addProperties_reflects keyed linked phase.holds phase.alive phase.number phase.bare

theorem build_property (keyed : s.Keyed) (t) (built : build s = .ok t)
    (dead : visibleNode s x = false) : t.property x k = none := by
  obtain ⟨linked, phase, rfl⟩ := build_linked keyed t built
  have unlisted : ((visibleProps s).filter fun p => p.node = x ∧ p.key = k) = [] := by
    rw [filter_eq_nil_iff]
    intro p listed
    obtain ⟨-, -, alive, -⟩ := (mem_visibleProps_iff s keyed p).mp listed
    simp only [decide_eq_true_eq]
    rintro ⟨rfl, -⟩
    rw [dead] at alive
    cases alive
  have read := property_foldl NodeProp.node NodeProp.key NodeProp.value (visibleProps s) linked x k
  rw [unlisted] at read
  rw [read]
  simp [property, phase.bare]

theorem Reflects.build_ok (reflects : t.Reflects s) : ∃ fresh, build s = .ok fresh := by
  have nodup : (sortBy id s.nodeAlive.elements).Nodup :=
    (perm_sortBy id _).nodup_iff.mpr (nodup_elements)
  have room := reflects.edges.toNumbered.fits _ nodup fun x mem =>
    numbered_of_isAlive t ((reflects.alive x).trans (mem_elements_sorted.mp mem))
  obtain ⟨registered, nodes⟩ := room.handleNodeAdds
  have ok := (registerNodes_ok_iff _ _).mpr nodes
  exact ⟨_, by rw [build, ok]; rfl⟩

end IndexTree
end GitWarp
