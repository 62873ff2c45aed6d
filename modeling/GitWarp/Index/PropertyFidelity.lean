import GitWarp.Provenance.Published
import GitWarp.Index.PropertyIndex

/-!
# What the property index answers

The shards of a state are read back entry by entry. Two things stand in the way: a
bag of the legacy schema loses the key `__proto__`, and the codec refuses bytes
beyond its own bounds, which the writer does not check.
-/
namespace GitWarp

open Js Lib List

variable {s : WarpState IndexedValue} {tree : OrdMap JsString Bytes}

namespace PropertyIndex

open IndexTree (isIndexableName isIndexableName_of_valid)

/-! ### Values with sorted keys -/

theorem propValueObjectEntriesAreValid_iff (entries) :
    propValueObjectEntriesAreValid entries = true ↔ ∀ entry ∈ entries,
      forbiddenPropertyValueKeys.contains entry.1 = false ∧ isPropValue entry.2 = true := by
  induction entries with
  | nil => simp [propValueObjectEntriesAreValid]
  | cons entry rest ih =>
    rw [propValueObjectEntriesAreValid, Bool.and_eq_true, Bool.and_eq_true, ih,
      forall_mem_cons, Bool.not_eq_true']

theorem sortObjectEntries_eq (entries) :
    sortObjectEntries entries = entries.map fun entry => (entry.1, sortKeys entry.2) := by
  induction entries with
  | nil => rfl
  | cons entry rest ih => rw [sortObjectEntries, ih, map_cons]

theorem sortArrayItems_eq (items) : sortArrayItems items = items.map sortKeys := by
  induction items with
  | nil => rfl
  | cons item rest ih => rw [sortArrayItems, ih, map_cons]

mutual

theorem isPropValue_sortKeys : (data : JsData) → isPropValue data = true →
    isPropValue (sortKeys data) = true
  | .array items, valid => arePropValues_sorted items valid
  | .object entries, valid => by
    have own := entriesHaveOwnKeys_of_valid entries valid
    have sorted := entriesAreValid_sorted entries valid
    rw [propValueObjectEntriesAreValid_iff] at sorted
    rw [sortKeys, isPropValue, propValueObjectEntriesAreValid_iff]
    intro entry mem
    exact sorted entry ((perm_sortedEntries entries own).mem_iff.mp mem)
  | .null, _ | .boolean _, _ | .number _, _ | .string _, _ | .bytes _, _ => rfl

theorem arePropValues_sorted : (items : List JsData) → arePropValues items = true →
    arePropValues (sortArrayItems items) = true
  | [], _ => rfl
  | item :: rest, valid => by
    rw [arePropValues, Bool.and_eq_true] at valid
    rw [sortArrayItems, arePropValues, isPropValue_sortKeys item valid.1,
      arePropValues_sorted rest valid.2]
    rfl

theorem entriesAreValid_sorted : (entries : List (JsString × JsData)) →
    propValueObjectEntriesAreValid entries = true →
    propValueObjectEntriesAreValid (sortObjectEntries entries) = true
  | [], _ => rfl
  | (key, value) :: rest, valid => by
    rw [propValueObjectEntriesAreValid, Bool.and_eq_true, Bool.and_eq_true] at valid
    rw [sortObjectEntries, propValueObjectEntriesAreValid, valid.1.1,
      isPropValue_sortKeys value valid.1.2, entriesAreValid_sorted rest valid.2]
    rfl

end

mutual

theorem ordered_sortKeys : (data : JsData) → isPropValue data = true →
    data.distinctKeys = true → (sortKeys data).ordered = data.ordered
  | .array items, valid, distinct => by
    rw [sortKeys, JsData.ordered, JsData.ordered, orderedItems_sorted items valid distinct]
  | .object entries, valid, distinct => by
    -- sorting the keys gives the same data up to their order
    rw [JsData.distinctKeys, Bool.and_eq_true, decide_eq_true_eq] at distinct
    have perm := perm_sortedEntries entries (entriesHaveOwnKeys_of_valid entries valid)
    have inside := orderedEntries_sorted entries valid distinct.2
    have keys : ((orderedEntries entries).map Prod.fst).Nodup := by
      rw [orderedEntries_eq, map_map]
      exact distinct.1
    rw [sortKeys, JsData.ordered, JsData.ordered]
    -- the keys are distinct, so the order in which they come does not matter
    have reordered : (orderedEntries (assignAll (sortBy Prod.fst (sortObjectEntries entries)))).Perm
        (orderedEntries entries) := by
      rw [← inside, orderedEntries_eq, orderedEntries_eq]
      exact perm.map _
    rw [sortBy_eq_of_perm Prod.fst keys reordered.symm]
  | .null, _, _ | .boolean _, _, _ | .number _, _, _ | .string _, _, _ | .bytes _, _, _ => rfl

theorem orderedItems_sorted : (items : List JsData) → arePropValues items = true →
    distinctItems items = true → orderedItems (sortArrayItems items) = orderedItems items
  | [], _, _ => rfl
  | item :: rest, valid, distinct => by
    rw [arePropValues, Bool.and_eq_true] at valid
    rw [distinctItems, Bool.and_eq_true] at distinct
    rw [sortArrayItems, orderedItems, orderedItems, ordered_sortKeys item valid.1 distinct.1,
      orderedItems_sorted rest valid.2 distinct.2]

theorem orderedEntries_sorted : (entries : List (JsString × JsData)) →
    propValueObjectEntriesAreValid entries = true → distinctEntries entries = true →
    orderedEntries (sortObjectEntries entries) = orderedEntries entries
  | [], _, _ => rfl
  | (key, value) :: rest, valid, distinct => by
    rw [propValueObjectEntriesAreValid, Bool.and_eq_true, Bool.and_eq_true] at valid
    rw [distinctEntries, Bool.and_eq_true] at distinct
    rw [sortObjectEntries, orderedEntries, orderedEntries,
      ordered_sortKeys value valid.1.2 distinct.1, orderedEntries_sorted rest valid.2 distinct.2]

end

/-! ### The builder -/

section Builder

variable (profile : Profile)

/-- The bag of a node in the builder, or in what was read back. -/
def bagAt (b : PropertyIndexBuilder) (x : JsString) : Option PropertyBag :=
  (b.get (profile.shardKey x)).bind fun shard => shard.get x

theorem bagAt_addProperty (b) (nodeId key) (value) (x) :
    bagAt profile (addProperty profile b nodeId key value) x =
      if nodeId = x then some (((bagAt profile b x).getD .empty).set key value)
      else bagAt profile b x := by
  unfold bagAt addProperty
  rw [OrdMap.get_set]
  by_cases routed : profile.shardKey nodeId = profile.shardKey x
  · rw [if_pos routed, Option.bind_some, OrdMap.get_set, routed]
    by_cases here : nodeId = x
    · subst here
      rw [if_pos rfl, if_pos rfl]
      cases b.get (profile.shardKey nodeId) <;> rfl
    · rw [if_neg here, if_neg here]
      cases b.get (profile.shardKey x) <;> rfl
  · have here : nodeId ≠ x := fun same => routed (congrArg profile.shardKey same)
    rw [if_neg routed, if_neg here]

/-- The properties of one node among some properties, key and value. -/
def propsOf (props : List (NodeProp IndexedValue)) (x : JsString) :
    List (JsString × IndexedValue) :=
  (props.filter fun p => decide (p.node = x)).map fun p => (p.key, p.value)

theorem bagAt_foldl {props} (b) (x) :
    bagAt profile (props.foldl (fun b p => addProperty profile b p.node p.key p.value) b) x =
      if propsOf props x = [] then bagAt profile b x
      else some ((propsOf props x).foldl (fun bag entry => bag.set entry.1 entry.2)
        ((bagAt profile b x).getD .empty)) := by
  induction props generalizing b with
  | nil => rfl
  | cons p props ih =>
    rw [foldl_cons, ih, bagAt_addProperty]
    by_cases here : p.node = x
    · have grown : propsOf (p :: props) x = (p.key, p.value) :: propsOf props x := by
        simp [propsOf, here]
      rw [grown, if_pos here, if_neg (cons_ne_nil _ _), foldl_cons, Option.getD_some]
      -- the first property of a node opens its bag, the others are put into it
      by_cases last : propsOf props x = []
      · rw [if_pos last, last]
        rfl
      · rw [if_neg last]
    · have same : propsOf (p :: props) x = propsOf props x := by simp [propsOf, here]
      rw [same, if_neg here]

def shownProps (s : WarpState IndexedValue) (x : JsString) : List (JsString × IndexedValue) :=
  propsOf (visibleProps s) x

theorem bagAt_build (s) (x) :
    bagAt profile (buildPropertyIndex profile s) x =
      if shownProps s x = [] then none else some (OrdMap.ofList (shownProps s x)) :=
  bagAt_foldl profile .empty x

/-- A node stands in the shard that it is routed to. -/
def Routed (b : PropertyIndexBuilder) : Prop :=
  ∀ h shard x bag, b.get h = some shard → shard.get x = some bag → profile.shardKey x = h

theorem Routed.addProperty (routed : Routed profile b) (nodeId key) (value) :
    Routed profile (addProperty profile b nodeId key value) := by
  intro h shard x bag found held
  unfold PropertyIndex.addProperty at found
  rw [OrdMap.get_set] at found
  split at found
  next here =>
    obtain rfl := Option.some.inj found
    rw [OrdMap.get_set] at held
    split at held
    next same => exact same ▸ here
    next other =>
      -- an older node of the same shard
      cases old : b.get (profile.shardKey nodeId) with
      | none => simp [old] at held
      | some before =>
        rw [old] at held
        exact (routed _ before x bag old held).trans here
  next elsewhere => exact routed h shard x bag found held

theorem routed_build : Routed profile (buildPropertyIndex profile s) := by
  have fold : ∀ (props : List (NodeProp IndexedValue)) b, Routed profile b → Routed profile
        (props.foldl (fun b p => PropertyIndex.addProperty profile b p.node p.key p.value) b) := by
    intro props
    induction props with
    | nil => exact fun _ routed => routed
    | cons p props ih => exact fun b routed => ih _ (routed.addProperty profile p.node p.key p.value)
  apply fold
  intro h shard x bag found
  cases found

theorem shownProps_valid (keyed : s.Keyed) :
    (∀ entry ∈ shownProps s x, ValidId x ∧ ValidId entry.1) ∧
      ((shownProps s x).map Prod.fst).Nodup := by
  constructor
  · intro entry mem
    obtain ⟨p, listed, rfl⟩ := mem_map.mp mem
    obtain ⟨shown, here⟩ := mem_filter.mp listed
    obtain ⟨validNode, validKey, -⟩ := (mem_visibleProps_iff s keyed p).mp shown
    rw [← of_decide_eq_true here]
    exact ⟨validNode, validKey⟩
  · have distinct := (nodup_nodePropertiesFromState s keyed).sublist
      ((filter_sublist (p := fun p : NodeProp IndexedValue => visibleNode s p.node)).map propOrder)
    unfold shownProps propsOf
    rw [map_map]
    apply List.Nodup.map_on ?_ (distinct.of_map.filter _)
    intro p left p' right same
    rw [mem_filter, decide_eq_true_eq] at left right
    apply inj_on_of_nodup_map distinct left.1 right.1
    unfold propOrder
    rw [left.2, right.2]
    exact congrArg (fun key => toLex (x, key)) same

theorem bag_of_build (found : (buildPropertyIndex profile s).get h = some shard)
    (held : shard.get x = some bag) :
    shownProps s x ≠ [] ∧ bag = OrdMap.ofList (shownProps s x) := by
  have here := routed_build profile h shard x bag found held
  have read := bagAt_build profile s x
  unfold bagAt at read
  rw [here, found, Option.bind_some, held] at read
  split at read
  · cases read
  next some_ => exact ⟨some_, Option.some.inj read⟩

end Builder

/-! ### Decoding what was encoded -/

theorem foldlM_fresh {A D : Type}
    (step : OrdMap JsString D → A → Except Failure (OrdMap JsString D)) (entry : A → JsString × D)
    (items : List A) (m) (distinct : (items.map fun a => (entry a).1).Nodup)
    (adds : ∀ a ∈ items, ∀ m', m'.has (entry a).1 = false →
      step m' a = .ok (m'.set (entry a).1 (entry a).2))
    (fresh : ∀ a ∈ items, m.has (entry a).1 = false) :
    items.foldlM step m =
      .ok (items.foldl (fun m a => m.set (entry a).1 (entry a).2) m) := by
  induction items generalizing m with
  | nil => rfl
  | cons a items ih =>
    rw [map_cons, nodup_cons] at distinct
    rw [forall_mem_cons] at adds fresh
    rw [foldlM_cons, adds.1 m fresh.1, foldl_cons]
    apply ih _ distinct.2 adds.2
    intro b mem
    have apart : (entry a).1 ≠ (entry b).1 := fun same =>
      distinct.1 (same ▸ mem_map_of_mem mem)
    rw [OrdMap.has_eq_false_iff, OrdMap.get_set, if_neg apart]
    exact (OrdMap.has_eq_false_iff _ _).mp (fresh.2 b mem)

def sortedBag : SchemaVersion → PropertyBag → List (JsString × JsData)
  | .legacy, bag => assignAll (sortBy Prod.fst (sortObjectEntries (bagEntries bag)))
  | .current, bag => (sortBy Prod.fst (bagEntries bag)).map fun entry =>
      (entry.1, sortKeys entry.2)

theorem sortKeys_bagData (version bag) :
    sortKeys (bagData version bag) =
      match version with
      | .legacy => .object (sortedBag .legacy bag)
      | .current => .array ((sortedBag .current bag).map pairData) := by
  cases version with
  | legacy => rfl
  | current =>
    unfold bagData sortedBag
    rw [sortKeys, sortArrayItems_eq, map_map, map_map]
    rfl

/-- No key of a legacy bag is the one that the record loses. -/
def Kept : SchemaVersion → PropertyBag → Prop
  | .legacy, bag => bag.get protoKey = none
  | .current, _ => True

theorem bagEntries_own (kept : bag.get protoKey = none) :
    entriesHaveOwnKeys (bagEntries bag) = true := by
  apply entriesHaveOwnKeys_of_forall
  intro entry mem
  obtain ⟨⟨key, value⟩, listed, rfl⟩ := mem_map.mp mem
  have held := (bag.mem_entries_iff key).mp listed
  constructor
  · rintro rfl
    rw [kept] at held
    cases held
  · exact hasOwnKeys_of_isPropValue value.val value.property.1

theorem perm_sortedBag (kept : Kept version bag) :
    (sortedBag version bag).Perm
      (bag.entries.map fun entry => (entry.1, sortKeys entry.2.val)) := by
  have content : (bagEntries bag).map (fun entry => (entry.1, sortKeys entry.2)) =
      bag.entries.map fun entry => (entry.1, sortKeys entry.2.val) := by
    simp [bagEntries]
  cases version with
  | legacy =>
    rw [← content, ← sortObjectEntries_eq]
    exact perm_sortedEntries (bagEntries bag) (bagEntries_own kept)
  | current =>
    rw [← content]
    exact (perm_sortBy Prod.fst (bagEntries bag)).map _

/-- A bag with names that the reader accepts. -/
structure BagSound (version : SchemaVersion) (bag : PropertyBag) : Prop where
  kept : Kept version bag
  valid : ∀ k v, bag.get k = some v → ValidId k

theorem nodup_sortedBag (kept : Kept version bag) :
    ((sortedBag version bag).map Prod.fst).Nodup := by
  have keys : ((bag.entries.map fun entry => (entry.1, sortKeys entry.2.val)).map Prod.fst) =
      bag.entries.map Prod.fst := by simp
  exact (((perm_sortedBag kept).map Prod.fst).trans (.of_eq keys)).nodup_iff.mpr
    bag.nodup

theorem isIndexedEntry_sortedBag (sound : BagSound version bag) :
    ∀ entry ∈ sortedBag version bag, isIndexedEntry entry = true := by
  intro entry mem
  have listed := (perm_sortedBag sound.kept).mem_iff.mp mem
  obtain ⟨⟨key, value⟩, held, rfl⟩ := mem_map.mp listed
  have valid := sound.valid key value ((bag.mem_entries_iff key).mp held)
  unfold isIndexedEntry
  rw [isIndexableName_of_valid key valid, isPropValue_sortKeys value.val value.property.1]
  rfl

theorem createPropertyBag_pairs (distinct : (entries.map Prod.fst).Nodup)
    (accepted : ∀ entry ∈ entries, isIndexedEntry entry = true) :
    createPropertyBag path (entries.map pairData) = .ok (OrdMap.ofList entries) := by
  unfold createPropertyBag
  rw [foldlM_map]
  apply foldlM_fresh (fun bag entry => addPropertyBagEntry path bag (pairData entry)) id entries
    .empty distinct
  · intro entry mem bag fresh
    show addPropertyBagEntry path bag (.array [.string entry.1, entry.2]) = _
    rw [addPropertyBagEntry, accepted entry mem]
    simp only [Bool.not_true, Bool.false_eq_true, if_false]
    rw [if_neg (by rw [← id_eq entry, fresh]; decide)]
    rfl
  · intro entry _
    rfl

theorem decodePropertyBag_sorted (sound : BagSound version bag) :
    decodePropertyBag path version (sortKeys (bagData version bag)) =
      .ok (OrdMap.ofList (sortedBag version bag)) := by
  have distinct := nodup_sortedBag sound.kept
  have accepted := isIndexedEntry_sortedBag sound
  rw [sortKeys_bagData]
  cases version with
  | legacy =>
    show decodePropertyBag path .legacy (.object (sortedBag .legacy bag)) = _
    rw [decodePropertyBag, if_pos (all_eq_true.mpr accepted)]
    exact createPropertyBag_pairs distinct accepted
  | current => exact createPropertyBag_pairs distinct accepted

theorem get_decodedBag (bag) (kept : Kept version bag) (k data) :
    (OrdMap.ofList (sortedBag version bag)).get k = some data ↔
      ∃ v, bag.get k = some v ∧ data = sortKeys v.val := by
  rw [OrdMap.get_ofList_of_nodup _ (nodup_sortedBag kept), (perm_sortedBag kept).mem_iff, mem_map]
  constructor
  · rintro ⟨⟨key, value⟩, listed, same⟩
    obtain ⟨rfl, rfl⟩ := Prod.mk.inj same
    exact ⟨value, (bag.mem_entries_iff _).mp listed, rfl⟩
  · rintro ⟨v, held, rfl⟩
    exact ⟨(k, v), (bag.mem_entries_iff k).mpr held, rfl⟩

/-! ### Shards -/

/-- A shard whose nodes and bags the reader accepts. -/
structure ShardSound (shard : PropertyShard) : Prop where
  distinct : (shard.entries.map Prod.fst).Nodup
  node : ∀ entry ∈ shard.entries, ValidId entry.1
  bag : ∀ entry ∈ shard.entries, BagSound shard.schemaVersion entry.2

/-- The nodes of a shard with the bags that the reader makes of theirs. -/
def decodedEntries (shard : PropertyShard) : List (JsString × IndexedPropertyBag) :=
  shard.entries.map fun entry =>
    (entry.1, OrdMap.ofList (sortedBag shard.schemaVersion entry.2))

theorem sortKeys_payload (shard) :
    sortKeys (propertyShardPayload shard) =
      match shard.schemaVersion with
      | .legacy => .array (shard.entries.map fun entry =>
          .array [.string entry.1, sortKeys (bagData .legacy entry.2)])
      | .current => .object [(lit "entries", .array (shard.entries.map fun entry =>
          .array [.string entry.1, sortKeys (bagData .current entry.2)])),
          (lit "schemaVersion", numberData 2)] := by
  have entries : ∀ version, sortKeys (.array (shard.entries.map (entryData version))) =
      .array (shard.entries.map fun entry =>
        .array [.string entry.1, sortKeys (bagData version entry.2)]) := by
    intro version
    rw [sortKeys, sortArrayItems_eq, map_map]
    rfl
  unfold propertyShardPayload
  cases shard.schemaVersion with
  | legacy => exact entries .legacy
  | current =>
    have order : ∀ a b : JsData, assignAll (sortBy Prod.fst
        [(lit "schemaVersion", a), (lit "entries", b)]) =
          [(lit "entries", b), (lit "schemaVersion", a)] := by
      intro a b
      have later : ¬ lit "schemaVersion" ≤ lit "entries" := by decide
      have names : arrayIndex (lit "schemaVersion") = none ∧ arrayIndex (lit "entries") = none := by
        decide
      have own : lit "schemaVersion" ≠ protoKey ∧ lit "entries" ≠ protoKey := by decide
      simp [sortBy, assignAll, enumerationOrder, later, names.1, names.2, own.1, own.2]
    show JsData.object (assignAll (sortBy Prod.fst
      [(lit "schemaVersion", numberData 2), (lit "entries", sortKeys _)])) = _
    rw [order, entries]

theorem foldlM_entries (path) (sound : ShardSound shard) :
    (shard.entries.map fun entry =>
        JsData.array [.string entry.1, sortKeys (bagData shard.schemaVersion entry.2)]).foldlM
      (addPropertyShardEntry path shard.schemaVersion) .empty =
        .ok (OrdMap.ofList (decodedEntries shard)) := by
  have read := foldlM_fresh (fun data entry => addPropertyShardEntry path shard.schemaVersion data
      (.array [.string entry.1, sortKeys (bagData shard.schemaVersion entry.2)]))
    (fun entry => (entry.1, OrdMap.ofList (sortedBag shard.schemaVersion entry.2)))
    shard.entries .empty sound.distinct
    (by
      intro entry mem data fresh
      simp only at fresh
      rw [addPropertyShardEntry, isIndexableName_of_valid entry.1 (sound.node entry mem), fresh,
        decodePropertyBag_sorted (sound.bag entry mem)]
      rfl)
    (fun _ _ => rfl)
  rw [foldlM_map, read]
  unfold decodedEntries OrdMap.ofList
  rw [foldl_map]

theorem decodePropertyShardArtifact_sorted (path) (shard) (sound : ShardSound shard) :
    decodePropertyShardArtifact path (sortKeys (propertyShardPayload shard)) =
      .ok (OrdMap.ofList (decodedEntries shard)) := by
  have read := foldlM_entries path sound
  rw [sortKeys_payload]
  cases version : shard.schemaVersion with
  | legacy =>
    rw [version] at read
    exact read
  | current =>
    rw [version] at read
    have envelope : ∀ entries, decodePropertyShardPayload path (.object
        [(lit "entries", .array entries), (lit "schemaVersion", numberData 2)]) =
          .ok (.current, entries) := by
      intro entries
      have names : sortBy id [lit "entries", lit "schemaVersion"] =
          [lit "entries", lit "schemaVersion"] := by decide
      have apart : lit "entries" ≠ lit "schemaVersion" := by decide
      simp [decodePropertyShardPayload, decodeCurrentPropertyShardPayload, names, assocGet, apart,
        numberData]
    unfold decodePropertyShardArtifact
    rw [envelope]
    exact read

section Reading

variable (codec : CborLibrary) (profile : Profile)

/-- The shard of the builder under one key. -/
def shardOf (h : JsString) (nodes : OrdMap JsString PropertyBag) : PropertyShard :=
  ⟨h, profile.schemaVersion, sortBy Prod.fst nodes.entries⟩

/-- No node shows a property that the legacy schema loses. -/
def KeysKept (s : WarpState IndexedValue) : Prop :=
  profile.schemaVersion = .legacy → ∀ p ∈ visibleProps s, p.key ≠ protoKey

theorem shardOf_sound (keyed : s.Keyed) (kept : KeysKept profile s)
    (found : (buildPropertyIndex profile s).get h = some nodes) :
    ShardSound (shardOf profile h nodes) := by
  have listed : ∀ entry ∈ (shardOf profile h nodes).entries, nodes.get entry.1 = some entry.2 :=
    fun entry mem => (nodes.mem_entries_iff _).mp ((mem_sortBy Prod.fst _ entry).mp mem)
  constructor
  · exact ((perm_sortBy Prod.fst nodes.entries).map Prod.fst).nodup_iff.mpr nodes.nodup
  · intro entry mem
    obtain ⟨some_, -⟩ := bag_of_build profile found (listed entry mem)
    obtain ⟨prop, shown⟩ := exists_mem_of_ne_nil _ some_
    exact ((shownProps_valid keyed).1 prop shown).1
  · intro entry mem
    obtain ⟨-, bag⟩ := bag_of_build profile found (listed entry mem)
    obtain ⟨valid, distinct⟩ := shownProps_valid keyed
    constructor
    · show Kept profile.schemaVersion entry.2
      cases version : profile.schemaVersion with
      | current => trivial
      | legacy =>
        show entry.2.get protoKey = none
        cases held : entry.2.get protoKey with
        | none => rfl
        | some v =>
          rw [bag, OrdMap.get_ofList_of_nodup _ distinct] at held
          obtain ⟨p, shown, same⟩ := mem_map.mp held
          exact absurd (Prod.mk.inj same).1 (kept version p (mem_filter.mp shown).1)
    · intro k v held
      rw [bag, OrdMap.get_ofList_of_nodup _ distinct] at held
      exact (valid (k, v) held).2

theorem hasOwnKeys_payload (sound : ShardSound shard) :
    hasOwnKeys (propertyShardPayload shard) = true := by
  -- the data of a shard has no key that the codec loses
  have entries : hasOwnKeys (.array (shard.entries.map (entryData shard.schemaVersion))) = true := by
    apply haveOwnKeys_map
    intro entry mem
    have kept := (sound.bag entry mem).kept
    have bag : hasOwnKeys (bagData shard.schemaVersion entry.2) = true := by
      cases version : shard.schemaVersion with
      | legacy =>
        rw [version] at kept
        exact bagEntries_own kept
      | current =>
        apply haveOwnKeys_map
        intro pair listed
        rw [mem_sortBy] at listed
        obtain ⟨⟨key, value⟩, -, rfl⟩ := mem_map.mp listed
        have own := hasOwnKeys_of_isPropValue value.val value.property.1
        simp [pairData, hasOwnKeys, haveOwnKeys, own]
    simp [entryData, hasOwnKeys, haveOwnKeys, bag]
  unfold propertyShardPayload
  cases version : shard.schemaVersion with
  | legacy =>
    rw [version] at entries
    exact entries
  | current =>
    rw [version] at entries
    apply entriesHaveOwnKeys_of_forall
    simp only [forall_mem_cons, not_mem_nil, false_imp_iff, implies_true, and_true]
    exact ⟨⟨by decide, rfl⟩, by decide, entries⟩

/-! ### The tree of shards -/

theorem shardPath_injective : Function.Injective shardPath := by
  intro h h' same
  unfold shardPath at same
  rw [append_assoc, append_assoc] at same
  exact append_cancel_right (append_cancel_left same)

theorem encodeShard_ok :
    encodeShard codec profile shard = .ok mem ↔
      codec.encodeSorted (propertyShardPayload shard) = .ok mem.2 ∧
        profile.accepts mem.2 = .ok () ∧ mem.1 = shardPath shard.shardKey := by
  obtain ⟨path, bytes⟩ := mem
  unfold encodeShard
  cases encoded : codec.encodeSorted (propertyShardPayload shard) with
  | error e =>
    constructor
    · intro none
      cases none
    · rintro ⟨none, -⟩
      cases none
  | ok made =>
    simp only [ok_bind, Except.ok.injEq]
    cases admitted : profile.accepts made with
    | error e =>
      constructor
      · intro none
        cases none
      · rintro ⟨rfl, admitted', -⟩
        rw [admitted] at admitted'
        cases admitted'
    | ok _ =>
      constructor
      · intro same
        obtain ⟨rfl, rfl⟩ := Prod.mk.inj (Except.ok.inj same)
        exact ⟨rfl, admitted, rfl⟩
      · rintro ⟨rfl, -, rfl⟩
        rfl

theorem get_tree (written : writeShards codec profile s = .ok tree) (h) :
    match (buildPropertyIndex profile s).get h with
    | none => tree.get (shardPath h) = none
    | some nodes => ∃ bytes, tree.get (shardPath h) = some bytes ∧
        codec.encodeSorted (propertyShardPayload (shardOf profile h nodes)) = .ok bytes ∧
          profile.accepts bytes = .ok () := by
  -- the members of the tree are the encoded shards of the builder
  obtain ⟨members, encoded, same⟩ := bind_eq_ok.mp written
  obtain rfl := Except.ok.inj same
  have origin : ∀ bytes, (OrdMap.ofList members).get (shardPath h) = some bytes →
      ∃ nodes, (buildPropertyIndex profile s).get h = some nodes ∧
        encodeShard codec profile (shardOf profile h nodes) = .ok (shardPath h, bytes) := by
    intro bytes found
    have listed := OrdMap.mem_of_mem_entries_ofList members
      ((OrdMap.mem_entries_iff _ _).mpr found)
    obtain ⟨shard, yielded, made⟩ := mem_of_mapM_ok _ encoded _ listed
    obtain ⟨⟨h', nodes⟩, held, rfl⟩ := mem_map.mp yielded
    -- the path of a shard tells its key
    obtain rfl := shardPath_injective ((encodeShard_ok codec profile).mp made).2.2
    exact ⟨nodes, (OrdMap.mem_entries_iff _ _).mp held, made⟩
  cases kept : (buildPropertyIndex profile s).get h with
  | none =>
    show (OrdMap.ofList members).get (shardPath h) = none
    cases found : (OrdMap.ofList members).get (shardPath h) with
    | none => rfl
    | some bytes =>
      obtain ⟨nodes, held, -⟩ := origin bytes found
      rw [kept] at held
      cases held
  | some nodes =>
    have yielded : shardOf profile h nodes ∈ yieldShards profile (buildPropertyIndex profile s) :=
      mem_map.mpr ⟨(h, nodes), (OrdMap.mem_entries_iff _ _).mpr kept, rfl⟩
    obtain ⟨⟨path, bytes⟩, listed, made⟩ := result_of_mapM_ok _ encoded _ yielded
    obtain ⟨whole, admitted, rfl⟩ := (encodeShard_ok codec profile).mp made
    refine ⟨bytes, ?_, whole, admitted⟩
    have present : (OrdMap.ofList members).get (shardPath h) ≠ none := by
      rw [OrdMap.get_ofList, Ne, Option.map_eq_none_iff, List.getLast?_eq_none_iff,
        filter_eq_nil_iff]
      exact fun none => none _ listed (decide_eq_true rfl)
    obtain ⟨bytes', found⟩ := Option.ne_none_iff_exists'.mp present
    obtain ⟨nodes', held, made'⟩ := origin bytes' found
    obtain rfl := Option.some.inj (kept.symm.trans held)
    have same := ((encodeShard_ok codec profile).mp made').1
    rw [whole] at same
    obtain rfl := Except.ok.inj same
    exact found

/-! ### What the reader answers -/

/-- How deep a value may nest in a shard that the codec takes. -/
def maxValueDepth : SchemaVersion → Nat
  | .legacy => 29
  | .current => 27

theorem depth_payload_le_iff :
    (propertyShardPayload shard).depth ≤ 32 ↔ ∀ entry ∈ shard.entries,
      ∀ pair ∈ entry.2.entries, pair.2.val.depth ≤ maxValueDepth shard.schemaVersion := by
  have bagEntry : ∀ (bag : PropertyBag) (deep : JsData → Prop),
      (∀ pair ∈ bagEntries bag, deep pair.2) ↔ ∀ pair ∈ bag.entries, deep pair.2.val := by
    intro bag deep
    rw [bagEntries, forall_mem_map]
  unfold propertyShardPayload
  cases shard.schemaVersion with
  | legacy =>
    simp only [depth_array_le_iff, forall_mem_map]
    apply forall₂_congr
    intro entry _
    have inside := depth_object_le_iff (bagEntries entry.2) 30
    rw [bagEntry entry.2 fun data => data.depth + 1 ≤ 30] at inside
    have item : (entryData .legacy entry).depth + 1 ≤ 32 ↔
        (JsData.object (bagEntries entry.2)).depth ≤ 30 := by
      simp only [entryData, bagData, JsData.depth, depths]
      omega
    rw [item, inside]
    apply forall₂_congr
    intro pair _
    simp only [maxValueDepth]
    omega
  | current =>
    have outer := depth_object_le_iff [(lit "schemaVersion", numberData 2),
      (lit "entries", .array (shard.entries.map (entryData .current)))] 32
    have number : (numberData 2).depth = 0 := rfl
    simp only [forall_mem_cons, not_mem_nil, false_imp_iff, implies_true, and_true, number] at outer
    have array : (JsData.array (shard.entries.map (entryData .current))).depth + 1 ≤ 32 ↔
        ∀ entry ∈ shard.entries, (entryData .current entry).depth + 1 ≤ 31 := by
      rw [← forall_mem_map (P := fun data : JsData => data.depth + 1 ≤ 31), ← depth_array_le_iff]
      omega
    rw [outer, array]
    simp only [Nat.reduceAdd, Nat.reduceLeDiff, true_and]
    apply forall₂_congr
    intro entry _
    have item : (entryData .current entry).depth ≤ 30 ↔
        (bagData .current entry.2).depth ≤ 29 := by
      simp only [entryData, JsData.depth, depths]
      omega
    rw [item, bagData, depth_array_le_iff, forall_mem_map]
    simp only [mem_sortBy]
    rw [← bagEntry entry.2 fun data => data.depth ≤ maxValueDepth .current]
    apply forall₂_congr
    intro pair _
    simp only [pairData, JsData.depth, depths, maxValueDepth]
    omega

theorem forall_value_iff (keyed : s.Keyed) (holds : IndexedValue → Prop) :
    (∀ p ∈ visibleProps s, holds p.value) ↔
      ∀ h nodes, (buildPropertyIndex profile s).get h = some nodes →
        ∀ entry ∈ (shardOf profile h nodes).entries, ∀ pair ∈ entry.2.entries, holds pair.2 := by
  -- each value of a shard is that of a visible property, and each visible property is in the
  -- shard of its node
  constructor
  · intro each h nodes found entry mem pair listed
    have held := (nodes.mem_entries_iff _).mp ((mem_sortBy Prod.fst _ entry).mp mem)
    obtain ⟨-, bag⟩ := bag_of_build profile found held
    have value := (OrdMap.mem_entries_iff _ _).mp listed
    rw [bag, OrdMap.get_ofList_of_nodup _ (shownProps_valid keyed).2] at value
    obtain ⟨p, shown, same⟩ := mem_map.mp value
    rw [← (Prod.mk.inj same).2]
    exact each p (mem_filter.mp shown).1
  · intro each p shown
    have mine : (p.key, p.value) ∈ shownProps s p.node :=
      mem_map.mpr ⟨p, mem_filter.mpr ⟨shown, decide_eq_true rfl⟩, rfl⟩
    have bag := bagAt_build profile s p.node
    rw [if_neg (ne_nil_of_mem mine)] at bag
    obtain ⟨nodes, found, held⟩ := Option.bind_eq_some_iff.mp bag
    have pair : (p.key, p.value) ∈ (OrdMap.ofList (shownProps s p.node)).entries := by
      rw [OrdMap.mem_entries_iff, OrdMap.get_ofList_of_nodup _ (shownProps_valid keyed).2]
      exact mine
    exact each _ nodes found (p.node, _)
      ((mem_sortBy Prod.fst _ _).mpr ((nodes.mem_entries_iff _).mpr held)) _ pair

/-- The condition under which the codec keeps and takes the shards of a state. -/
structure WithinBounds (s : WarpState IndexedValue) (tree : OrdMap JsString Bytes) : Prop where
  kept : KeysKept profile s
  shallow : ∀ p ∈ visibleProps s, p.value.val.depth ≤ maxValueDepth profile.schemaVersion
  short : ∀ h bytes, tree.get (shardPath h) = some bytes → bytes.length ≤ maxCborDecodeBytes
  few : ∀ h nodes, (buildPropertyIndex profile s).get h = some nodes →
    (propertyShardPayload (shardOf profile h nodes)).size ≤ 1000000

theorem readShard_of_bounds (keyed : s.Keyed) (bounds : WithinBounds profile s tree)
    (found : (buildPropertyIndex profile s).get h = some nodes)
    (stored : tree.get (shardPath h) = some bytes)
    (encoded : codec.encodeSorted (propertyShardPayload (shardOf profile h nodes)) = .ok bytes)
    (admitted : profile.accepts bytes = .ok ()) :
    readShard codec profile (shardPath h) bytes =
      .ok (OrdMap.ofList (decodedEntries (shardOf profile h nodes))) := by
  -- a shard within the bounds is read back node by node
  have sound := shardOf_sound profile keyed bounds.kept found
  have own := hasOwnKeys_payload sound
  have deep : (propertyShardPayload (shardOf profile h nodes)).depth ≤ 32 := by
    rw [depth_payload_le_iff]
    exact (forall_value_iff profile keyed
      fun value => value.val.depth ≤ maxValueDepth profile.schemaVersion).mp bounds.shallow h nodes
        found
  have bounded : requireBoundedCbor bytes = .ok () :=
    (requireBoundedCbor_iff own encoded).mpr
      ⟨bounds.short h bytes stored, deep, bounds.few h nodes found⟩
  have decoded := codec.roundTrip _ bytes own encoded
  unfold readShard decodePropertyShard
  rw [admitted, ok_bind, bounded, ok_bind, decoded, ok_bind,
    decodePropertyShardArtifact_sorted _ _ sound, ok_bind, if_pos]
  · rfl
  · -- every node of the shard is routed to it
    rw [all_eq_true]
    intro x mem
    obtain ⟨bag, held⟩ := OrdMap.exists_get_of_mem_keys _ x mem
    have listed := OrdMap.mem_of_mem_entries_ofList _ ((OrdMap.mem_entries_iff _ _).mpr held)
    obtain ⟨entry, inside, same⟩ := mem_map.mp listed
    have here := (nodes.mem_entries_iff _).mp ((mem_sortBy Prod.fst _ entry).mp inside)
    have routed := routed_build profile h nodes entry.1 entry.2 found here
    rw [← (Prod.mk.inj same).1, routed]
    exact decide_eq_true rfl

def answeredBag (s : WarpState IndexedValue) (x : JsString) : Option IndexedPropertyBag :=
  (bagAt profile (buildPropertyIndex profile s) x).map fun bag =>
    OrdMap.ofList (sortedBag profile.schemaVersion bag)

theorem getNodeProps_of_bounds (keyed : s.Keyed) (written : writeShards codec profile s = .ok tree)
    (bounds : WithinBounds profile s tree) :
    getNodeProps codec profile tree x = .ok (answeredBag profile s x) := by
  have stored := get_tree codec profile written (profile.shardKey x)
  unfold getNodeProps answeredBag bagAt
  cases found : (buildPropertyIndex profile s).get (profile.shardKey x) with
  | none =>
    rw [found] at stored
    simp only [stored, Option.bind_none, Option.map_none]
  | some nodes =>
    rw [found] at stored
    obtain ⟨bytes, here, encoded, admitted⟩ := stored
    have read := readShard_of_bounds codec profile keyed bounds
      found here encoded admitted
    simp only [here, read, ok_bind, Option.bind_some]
    congr 1
    -- the entries of the shard are those of its nodes
    have distinct : ((decodedEntries (shardOf profile (profile.shardKey x) nodes)).map
        Prod.fst).Nodup := by
      unfold decodedEntries
      rw [map_map]
      exact (shardOf_sound profile keyed bounds.kept found).distinct
    apply Option.ext
    intro bag
    rw [OrdMap.get_ofList_of_nodup _ distinct, Option.map_eq_some_iff]
    unfold decodedEntries
    rw [mem_map]
    constructor
    · rintro ⟨entry, member, same⟩
      obtain ⟨rfl, rfl⟩ := Prod.mk.inj same
      exact ⟨entry.2, (nodes.mem_entries_iff _).mp ((mem_sortBy Prod.fst _ entry).mp member), rfl⟩
    · rintro ⟨original, held, rfl⟩
      exact ⟨(x, original), (mem_sortBy Prod.fst _ _).mpr ((nodes.mem_entries_iff _).mpr held), rfl⟩

/-! ### Faithful indexes -/

/-- An answer for one key: absence, or the value that the state shows, with the keys of
its objects in some order. -/
def ShowsValue (s : WarpState IndexedValue) (x k : JsString) : Option JsData → Prop
  | none => ∀ v, (k, v) ∉ shownProps s x
  | some data => ∃ v, (k, v) ∈ shownProps s x ∧ data.ordered = v.val.ordered

/-- An answer for one node: absence, or a bag with all that the state shows of the node. -/
def ShowsBag (s : WarpState IndexedValue) (x : JsString) : Option IndexedPropertyBag → Prop
  | none => shownProps s x = []
  | some bag => shownProps s x ≠ [] ∧ ∀ k, ShowsValue s x k (bag.get k)

/-- Every shard is taken by the decoder, and the answers are what the state shows. -/
structure FaithfulIndex (s : WarpState IndexedValue) (tree : OrdMap JsString Bytes) : Prop where
  accepted : ∀ path bytes, tree.get path = some bytes →
    ∃ shard, readShard codec profile path bytes = .ok shard
  nodeProps : ∀ x, ∃ answer, getNodeProps codec profile tree x = .ok answer ∧ ShowsBag s x answer
  property : ∀ x k, ∃ answer, getProperty codec profile tree x k = .ok answer ∧
    ShowsValue s x k answer

theorem path_of_tree (written : writeShards codec profile s = .ok tree)
    (stored : tree.get path = some bytes) : ∃ h, path = shardPath h := by
  obtain ⟨members, encoded, same⟩ := bind_eq_ok.mp written
  obtain rfl := Except.ok.inj same
  have listed := OrdMap.mem_of_mem_entries_ofList members
    ((OrdMap.mem_entries_iff _ _).mpr stored)
  obtain ⟨shard, -, made⟩ := mem_of_mapM_ok _ encoded _ listed
  exact ⟨shard.shardKey, ((encodeShard_ok codec profile).mp made).2.2⟩

theorem answeredBag_shows (keyed : s.Keyed) (kept : KeysKept profile s) :
    ShowsBag s x (answeredBag profile s x) ∧
      ∀ k, ShowsValue s x k ((answeredBag profile s x).bind fun bag => bag.get k) := by
  unfold answeredBag
  rw [bagAt_build]
  by_cases none : shownProps s x = []
  · rw [if_pos none]
    refine ⟨none, fun k v => ?_⟩
    rw [none]
    exact not_mem_nil
  · rw [if_neg none]
    obtain ⟨valid, distinct⟩ := shownProps_valid keyed
    have bagKept : Kept profile.schemaVersion (OrdMap.ofList (shownProps s x)) := by
      cases version : profile.schemaVersion with
      | current => trivial
      | legacy =>
        show (OrdMap.ofList (shownProps s x)).get protoKey = Option.none
        rw [← Option.not_isSome_iff_eq_none, Option.isSome_iff_exists]
        rintro ⟨v, held⟩
        rw [OrdMap.get_ofList_of_nodup _ distinct] at held
        obtain ⟨p, shown, same⟩ := mem_map.mp held
        exact kept version p (mem_filter.mp shown).1 (Prod.mk.inj same).1
    have value : ∀ k, ShowsValue s x k
        ((OrdMap.ofList (sortedBag profile.schemaVersion (OrdMap.ofList (shownProps s x)))).get k) := by
      intro k
      have read := get_decodedBag _ bagKept k
      cases answer : (OrdMap.ofList (sortedBag profile.schemaVersion
          (OrdMap.ofList (shownProps s x)))).get k with
      | none =>
        intro v shown
        have held := (OrdMap.get_ofList_of_nodup _ distinct k v).mpr shown
        have found := (read (sortKeys v.val)).mpr ⟨v, held, rfl⟩
        rw [answer] at found
        cases found
      | some data =>
        obtain ⟨v, held, rfl⟩ := (read data).mp answer
        exact ⟨v, (OrdMap.get_ofList_of_nodup _ distinct k v).mp held,
          ordered_sortKeys v.val v.property.1 v.property.2⟩
    exact ⟨⟨none, value⟩, value⟩

theorem faithful_of_bounds (keyed : s.Keyed) (written : writeShards codec profile s = .ok tree)
    (bounds : WithinBounds profile s tree) :
    FaithfulIndex codec profile s tree where
  accepted := by
    intro path bytes stored
    obtain ⟨h, rfl⟩ := path_of_tree codec profile written stored
    have mem := get_tree codec profile written h
    cases found : (buildPropertyIndex profile s).get h with
    | none =>
      rw [found] at mem
      cases mem.symm.trans stored
    | some nodes =>
      rw [found] at mem
      obtain ⟨bytes', stored', encoded, admitted⟩ := mem
      obtain rfl := Option.some.inj (stored.symm.trans stored')
      exact ⟨_, readShard_of_bounds codec profile keyed bounds found stored encoded admitted⟩
  nodeProps := fun x => ⟨_, getNodeProps_of_bounds codec profile keyed written bounds,
    (answeredBag_shows profile keyed bounds.kept).1⟩
  property := by
    intro x k
    refine ⟨_, ?_, (answeredBag_shows profile keyed bounds.kept).2 k⟩
    unfold getProperty
    rw [getNodeProps_of_bounds codec profile keyed written bounds]
    rfl

/-! ### The key that is lost -/

theorem foldlM_keeps {A D : Type} {step : D → A → Except Failure D} (good : D → Prop)
    {items : List A} (keeps : ∀ a ∈ items, ∀ d d', good d → step d a = .ok d' → good d') (d d' : D)
    (start : good d) (ran : items.foldlM step d = .ok d') : good d' := by
  induction items generalizing d with
  | nil =>
    obtain rfl := Except.ok.inj ran
    exact start
  | cons a items ih =>
    rw [forall_mem_cons] at keeps
    rw [foldlM_cons] at ran
    obtain ⟨next, stepped, rest⟩ := bind_eq_ok.mp ran
    exact ih keeps.2 next (keeps.1 d next start stepped) rest

theorem decodePropertyBag_lost (own : hasOwnKeys candidate = true)
    (decoded : decodePropertyBag path .legacy candidate = .ok bag) : bag.get protoKey = none := by
  cases candidate with
  | object entries =>
    rw [decodePropertyBag] at decoded
    split at decoded
    · unfold createPropertyBag at decoded
      rw [foldlM_map] at decoded
      apply foldlM_keeps (fun bag => OrdMap.get bag protoKey = none) ?_ .empty bag rfl
        decoded
      intro entry mem before after lost stepped
      have differ := ownKeys_of_entries entries own entry mem
      rw [pairData, addPropertyBagEntry, throw_unless_eq_ok, throw_unless_eq_ok] at stepped
      obtain ⟨-, -, stored⟩ := stepped
      rw [← Except.ok.inj stored, OrdMap.get_set, if_neg differ]
      exact lost
    · cases decoded
  | _ => cases decoded

theorem ownKeys_of_items (own : haveOwnKeys items = true) :
    ∀ item ∈ items, hasOwnKeys item = true := by
  induction items with
  | nil => exact fun _ mem => absurd mem not_mem_nil
  | cons item items ih =>
    rw [haveOwnKeys, Bool.and_eq_true] at own
    rw [forall_mem_cons]
    exact ⟨own.1, ih own.2⟩

theorem decodeArtifact_lost (path) (own : hasOwnKeys (.array items) = true)
    (decoded : decodePropertyShardArtifact path (.array items) = .ok data) :
    ∀ x bag, data.get x = some bag → bag.get protoKey = none := by
  have each := ownKeys_of_items own
  apply foldlM_keeps
    (fun data => ∀ x bag, OrdMap.get data x = some bag → bag.get protoKey = none) ?_ .empty
    data (by simp) decoded
  intro item mem before after lost stepped
  unfold addPropertyShardEntry at stepped
  split at stepped
  next nodeId bag =>
    have inside := ownKeys_of_items (each _ mem) bag (by simp)
    rw [throw_unless_eq_ok, throw_unless_eq_ok] at stepped
    obtain ⟨-, -, stepped⟩ := stepped
    obtain ⟨read, decodedBag, stored⟩ := bind_eq_ok.mp stepped
    obtain rfl := Except.ok.inj stored
    exact OrdMap.forall_set (decodePropertyBag_lost inside decodedBag) lost
  · cases stepped

theorem getProperty_lost (written : writeShards codec profile s = .ok tree)
    (legacy : profile.schemaVersion = .legacy) {answer}
    (answered : getProperty codec profile tree x protoKey = .ok answer) : answer = none := by
  -- a legacy shard never answers for `__proto__`
  have stored := get_tree codec profile written (profile.shardKey x)
  obtain ⟨props, read, rest⟩ := bind_eq_ok.mp answered
  obtain rfl := Except.ok.inj rest
  unfold getNodeProps at read
  cases found : (buildPropertyIndex profile s).get (profile.shardKey x) with
  | none =>
    rw [found] at stored
    simp only [stored] at read
    obtain rfl := Except.ok.inj read
    rfl
  | some nodes =>
    rw [found] at stored
    obtain ⟨bytes, here, encoded, -⟩ := stored
    simp only [here] at read
    obtain ⟨shard, readShard, rest⟩ := bind_eq_ok.mp read
    obtain rfl := Except.ok.inj rest
    obtain ⟨-, -, readShard⟩ := bind_eq_ok.mp readShard
    obtain ⟨-, -, readShard⟩ := bind_eq_ok.mp readShard
    obtain ⟨decoded, library, readShard⟩ := bind_eq_ok.mp readShard
    obtain ⟨data, artifact, routed⟩ := bind_eq_ok.mp readShard
    -- a legacy shard is written as an array, so it is read as one
    have written' : codec.encode (.array (sortArrayItems
        ((shardOf profile (profile.shardKey x) nodes).entries.map (entryData .legacy)))) =
          .ok bytes := by
      rw [← encoded]
      unfold CborX.encodeSorted propertyShardPayload shardOf
      rw [legacy]
      rfl
    obtain ⟨items, rfl⟩ := codec.arrays _ bytes decoded written' library
    have lost := decodeArtifact_lost _ (codec.ownKeys bytes _ library) artifact
    split at routed
    · obtain rfl := Except.ok.inj routed
      cases held : data.get x with
      | none => rfl
      | some bag => exact lost x bag held
    · cases routed

theorem bounds_of_faithful (keyed : s.Keyed) (written : writeShards codec profile s = .ok tree)
    (faithful : FaithfulIndex codec profile s tree) : WithinBounds profile s tree := by
  have kept : KeysKept profile s := by
    intro legacy p shown proto
    obtain ⟨answer, answered, shows⟩ := faithful.property p.node protoKey
    obtain rfl := getProperty_lost codec profile written legacy answered
    apply shows p.value
    rw [← proto]
    exact mem_map.mpr ⟨p, mem_filter.mpr ⟨shown, decide_eq_true rfl⟩, rfl⟩
  -- a shard that is read has passed the bounds of the codec
  have bounded : ∀ h nodes, (buildPropertyIndex profile s).get h = some nodes →
      ∃ bytes, tree.get (shardPath h) = some bytes ∧ bytes.length ≤ maxCborDecodeBytes ∧
        (propertyShardPayload (shardOf profile h nodes)).depth ≤ 32 ∧
          (propertyShardPayload (shardOf profile h nodes)).size ≤ 1000000 := by
    intro h nodes found
    have mem := get_tree codec profile written h
    rw [found] at mem
    obtain ⟨bytes, stored, encoded, -⟩ := mem
    obtain ⟨shard, read⟩ := faithful.accepted _ bytes stored
    obtain ⟨-, -, read⟩ := bind_eq_ok.mp read
    obtain ⟨⟨⟩, passed, -⟩ := bind_eq_ok.mp read
    have own := hasOwnKeys_payload (shardOf_sound profile keyed kept found)
    exact ⟨bytes, stored, (requireBoundedCbor_iff own encoded).mp passed⟩
  constructor
  · exact kept
  · apply (forall_value_iff profile keyed
      fun value => value.val.depth ≤ maxValueDepth profile.schemaVersion).mpr
    intro h nodes found
    obtain ⟨-, -, -, deep, -⟩ := bounded h nodes found
    exact depth_payload_le_iff.mp deep
  · intro h bytes stored
    have mem := get_tree codec profile written h
    cases found : (buildPropertyIndex profile s).get h with
    | none =>
      rw [found] at mem
      cases mem.symm.trans stored
    | some nodes =>
      obtain ⟨bytes', stored', short, -⟩ := bounded h nodes found
      obtain rfl := Option.some.inj (stored.symm.trans stored')
      exact short
  · intro h nodes found
    obtain ⟨-, -, -, -, few⟩ := bounded h nodes found
    exact few

end Reading

/-! ### A codec and two small states -/

def flagData (props : List (JsString × Bool)) : JsData :=
  .array [.array [.string (lit "n"), .object (props.map fun p => (p.1, .boolean p.2))]]

def readFlags : List (JsString × JsData) → Option (List (JsString × Bool))
  | [] => some []
  | (key, .boolean value) :: rest => (readFlags rest).map fun props => (key, value) :: props
  | _ => none

def readFlagData : JsData → Option (List (JsString × Bool))
  | .array [.array [.string nodeId, .object entries]] =>
    if nodeId = lit "n" then readFlags entries else none
  | _ => none

theorem readFlags_eq (entries props) (read : readFlags entries = some props) :
    entries = props.map fun p => (p.1, .boolean p.2) := by
  fun_induction readFlags entries generalizing props with
  | case1 =>
    obtain rfl := Option.some.inj read
    rfl
  | case2 key value rest ih =>
    obtain ⟨others, readRest, rfl⟩ := Option.map_eq_some_iff.mp read
    rw [ih others readRest]
    rfl
  | case3 => cases read

theorem readFlagData_eq {props} (read : readFlagData data = some props) :
    data = flagData props := by
  unfold readFlagData at read
  split at read
  · split at read
    next here =>
      rw [here, readFlags_eq _ _ read]
      rfl
    · cases read
  · cases read

/-- The shards that the small library knows: one flag, and none. -/
def flagSamples : List (List (JsString × Bool)) := [[(lit "k", true)], []]

def spellsFlags (bytes : Bytes) (props : List (JsString × Bool)) : Bool :=
  match plainCborX.encode (flagData props) with
  | .ok made => decide (made = bytes)
  | .error _ => false

/-- A few shards are encoded the standard way, everything else is refused. -/
def encodeFlags (data : JsData) : Except Failure Bytes :=
  match readFlagData data with
  | some props =>
    if props ∈ flagSamples then plainCborX.encode data
    else .error ⟨.typeError, [], lit "unsupported"⟩
  | none => .error ⟨.typeError, [], lit "unsupported"⟩

theorem encodeFlags_ok (made : encodeFlags data = .ok bytes) :
    ∃ props ∈ flagSamples, data = flagData props ∧ plainCborX.encode data = .ok bytes := by
  unfold encodeFlags at made
  split at made
  next props read =>
    split at made
    next listed => exact ⟨props, listed, readFlagData_eq read, made⟩
    · cases made
  · cases made

def flagCborX : CborX where
  number := plainCborX.number
  utf8 := plainCborX.utf8
  encode := encodeFlags
  scalar := plainCborX.scalar
  standard := by
    intro data bytes made
    obtain ⟨-, -, -, made⟩ := encodeFlags_ok made
    exact plainCborX.standard data bytes made

def flagLibrary : CborLibrary where
  toCborX := flagCborX
  decode bytes :=
    match flagSamples.find? (spellsFlags bytes) with
    | some props => .ok (flagData props)
    | none => .error ⟨.typeError, [], lit "unsupported"⟩
  ownKeys := by
    intro bytes data decoded
    split at decoded
    next props found =>
      obtain rfl := Except.ok.inj decoded
      have listed := List.mem_of_find?_eq_some found
      have each : ∀ props ∈ flagSamples, hasOwnKeys (flagData props) = true := by decide
      exact each props listed
    · cases decoded
  arrays := by
    intro items bytes data _ decoded
    split at decoded
    · obtain rfl := Except.ok.inj decoded
      exact ⟨_, rfl⟩
    · cases decoded
  roundTrip := by
    intro data bytes _ made
    obtain ⟨props, listed, same, made⟩ := encodeFlags_ok made
    rw [same] at made ⊢
    -- the known shards have different bytes
    have apart : ∀ props ∈ flagSamples, ∀ props' ∈ flagSamples, ∀ made,
        plainCborX.encode (flagData props) = .ok made →
          spellsFlags made props' = true → props = props' := by
      have run : (flagSamples.all fun props => flagSamples.all fun props' =>
          match plainCborX.encode (flagData props) with
          | .ok made => !spellsFlags made props' || decide (props = props')
          | .error _ => true) = true := by decide +kernel
      intro props listed props' listed' made encoded spelled
      have pair := List.all_eq_true.mp (List.all_eq_true.mp run props listed) props' listed'
      rw [encoded] at pair
      simpa [spelled] using pair
    have spelled : spellsFlags bytes props = true := by simp [spellsFlags, made]
    cases found : flagSamples.find? (spellsFlags bytes) with
    | none => exact absurd spelled (List.find?_eq_none.mp found props listed)
    | some props' =>
      have same' := apart props listed props' (List.mem_of_find?_eq_some found) bytes made
        (List.find?_some found)
      rw [same']

def flagForms : RecordingBuilder.ValueForms IndexedValue where
  text text := ⟨.string text, rfl, rfl⟩
  null := ⟨.null, rfl, rfl⟩

def flagSession (key : JsString) : PatchSession IndexedValue where
  writerId := ⟨lit "alice", alice_named⟩
  lamport := 1
  vv := .empty
  onDeleteWithData := .reject
  snapshotState := none
  calls := [.addNode (lit "n"), .setProperty (lit "n") key ⟨.boolean true, rfl, rfl⟩]
  ownTick := 0
  sha := lit "aaaa"
  positive := Int.one_pos
  hex := aaaa_hex

def flagState (key : JsString) : Option (WarpState IndexedValue) :=
  match (flagSession key).publish flagForms with
  | .error _ => none
  | .ok p =>
    match reducePatches [p.entry] .empty with
    | .error _ => none
    | .ok s => some s

theorem flagState_eq (s) (ran : flagState key = some s) :
    ∃ p, (flagSession key).publish flagForms = .ok p ∧ reducePatches [p.entry] .empty = .ok s := by
  unfold flagState at ran
  split at ran
  · cases ran
  next p published =>
    split at ran
    · cases ran
    next t reduced =>
      obtain rfl := Option.some.inj ran
      exact ⟨p, published, reduced⟩

/-- A check on the state of the session and the tree written for it. -/
def flagRun (key : JsString) (check : WarpState IndexedValue → OrdMap JsString Bytes → Bool) :
    Bool :=
  match flagState key with
  | none => false
  | some s =>
    match writeShards flagLibrary legacyProfile s with
    | .error _ => false
    | .ok tree => check s tree

theorem flagRun_spec (key) (check) (ran : flagRun key check = true) :
    ∃ p s tree, (flagSession key).publish flagForms = .ok p ∧
      reducePatches [p.entry] .empty = .ok s ∧
      writeShards flagLibrary legacyProfile s = .ok tree ∧ check s tree = true := by
  unfold flagRun at ran
  split at ran
  · cases ran
  next s state =>
    split at ran
    · cases ran
    next tree written =>
      obtain ⟨p, published, reduced⟩ := flagState_eq s state
      exact ⟨p, s, tree, published, reduced, written, ran⟩

def checkBounds (s : WarpState IndexedValue) (tree : OrdMap JsString Bytes) : Bool :=
  (visibleProps s).all (fun p => decide (p.key ≠ protoKey ∧ p.value.val.depth ≤ 29)) &&
    tree.entries.all (fun entry => decide (entry.2.length ≤ maxCborDecodeBytes)) &&
    (buildPropertyIndex legacyProfile s).entries.all fun entry =>
      decide ((propertyShardPayload (shardOf legacyProfile entry.1 entry.2)).size ≤ 1000000)

theorem bounds_of_check (s) (checked : checkBounds s tree = true) :
    WithinBounds legacyProfile s tree := by
  unfold checkBounds at checked
  rw [Bool.and_eq_true, Bool.and_eq_true, all_eq_true, all_eq_true, all_eq_true] at checked
  obtain ⟨⟨shown, short⟩, few⟩ := checked
  constructor
  · exact fun _ p mem => (of_decide_eq_true (shown p mem)).1
  · exact fun p mem => (of_decide_eq_true (shown p mem)).2
  · intro h bytes stored
    exact of_decide_eq_true (short _ ((tree.mem_entries_iff _).mpr stored))
  · intro h nodes found
    exact of_decide_eq_true (few _ ((OrdMap.mem_entries_iff _ _).mpr found))

end PropertyIndex
end GitWarp
