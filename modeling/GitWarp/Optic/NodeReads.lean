import GitWarp.Optic.CheckpointTail

/-!
# What the reads of a node report

The read of a node counts an add in the tail as life and refuses removes that name
the node; the read of a property prefers any write of the tail. They agree with the
full reduction exactly when what the index has forgotten does not matter.
-/
namespace GitWarp

open Js Lib KeyCodec List

variable {V : Type}

/-! ### Operations and events -/

theorem someOp_eq {entry : PatchEntry V} (i) (ops events)
    (found : entry.eventsFrom i ops = .ok events) :
    someOp test ops = .ok (events.any fun event => test event.2.op) := by
  induction ops generalizing i events with
  | nil =>
    cases found
    rfl
  | cons rawOp rest ih =>
    rw [someOp]
    rcases eventsFrom_cons entry found with ⟨same, found⟩ | ⟨e, canonOp, tail, same, -, later, rfl⟩
    · rw [same]
      exact ih (i + 1) events found
    · rw [same]
      have rest_eq := ih (i + 1) tail later
      change (if test canonOp.op = true then pure true else someOp test rest) = _
      rw [rest_eq, any_cons]
      cases test canonOp.op with
      | true | false => rfl

theorem isNodeAddOf_iff {op : Op V} : isNodeAddOf x op = true ↔ ∃ dot, op = .nodeAdd x dot := by
  cases op with
  | nodeAdd node dot | _ => simp [isNodeAddOf]

theorem isNodeRemoveOf_iff {op : Op V} :
    isNodeRemoveOf x op = true ↔ ∃ dots, op = .nodeRemove x dots := by
  cases op with
  | nodeRemove node dots | _ => simp [isNodeRemoveOf]

theorem isPropertyOf_iff {op : Op V} :
    isPropertyOf x k op = true ↔ ∃ value, op = .nodePropSet x k value := by
  cases op with
  | nodePropSet node key value | _ => simp [isPropertyOf]

theorem includes_iff {entry : PatchEntry V} (known : entry.effect = .ok effect) :
    someOp test entry.patch.ops = .ok true ↔
      ∃ event ∈ effect.events, test event.2.op = true := by
  rw [someOp_eq 0 _ _ (entry.effect_parts known).1]
  simp

/-! ### Liveness -/

theorem reduceNodeLivenessOps_spec (x) {entry : PatchEntry V} (i) (ops events)
    (found : entry.eventsFrom i ops = .ok events) (alive alive')
    (folded : reduceNodeLivenessOps x alive ops = .ok alive') :
    (alive' = true ↔ alive = true ∨ ∃ event ∈ events, ∃ dot, event.2.op = .nodeAdd x dot) ∧
      ∀ event ∈ events, ∀ dots, event.2.op ≠ .nodeRemove x dots := by
  induction ops generalizing i events alive with
  | nil =>
    cases found
    cases folded
    simp
  | cons rawOp rest ih =>
    simp only [reduceNodeLivenessOps, bind_eq_ok] at folded
    obtain ⟨normalized, normal, next, stepped, folded⟩ := folded
    rcases eventsFrom_cons entry found with ⟨same, found⟩ | ⟨e, canonOp, tail, same, -, later, rfl⟩
    · cases normal.symm.trans same
      cases stepped
      exact ih (i + 1) events found alive folded
    · cases normal.symm.trans same
      obtain ⟨decides, spares⟩ := ih (i + 1) tail later next folded
      change reduceNodeLivenessOp x alive canonOp.op = .ok next at stepped
      rw [reduceNodeLivenessOp] at stepped
      simp only [mem_cons, exists_eq_or_imp, forall_eq_or_imp, decides]
      split at stepped
      next added =>
        cases stepped
        have here := isNodeAddOf_iff.mp added
        refine ⟨by simp [here], ?_, spares⟩
        intro dots removed
        obtain ⟨dot, op⟩ := here
        rw [op] at removed
        cases removed
      next notAdded =>
        have absent : ¬ ∃ dot, canonOp.op = .nodeAdd x dot :=
          mt isNodeAddOf_iff.mpr notAdded
        split at stepped
        · cases stepped
        next notRemoved =>
          cases stepped
          refine ⟨by simp [absent], ?_, spares⟩
          intro dots removed
          exact notRemoved (isNodeRemoveOf_iff.mpr ⟨dots, removed⟩)

/-- The event happens in one of the patches. -/
def EventOf (entries : List (PatchEntry V)) (event : Event V) : Prop :=
  ∃ entry ∈ entries, ∃ effect, entry.effect = .ok effect ∧ event ∈ effect.events

theorem eventOf_cons (known : entry.effect = .ok effect) (event) :
    EventOf (entry :: rest) event ↔ event ∈ effect.events ∨ EventOf rest event := by
  simp only [EventOf, mem_cons, exists_eq_or_imp, known, Except.ok.injEq, exists_eq_left']

theorem reduceNodeLiveness_spec (x) {entries : List (PatchEntry V)}
    (effects : ∀ entry ∈ entries, ∃ effect, entry.effect = .ok effect) (alive alive')
    (folded : reduceNodeLiveness x alive entries = .ok alive') :
    (alive' = true ↔ alive = true ∨
        ∃ event, EventOf entries event ∧ ∃ dot, event.2.op = .nodeAdd x dot) ∧
      ∀ event, EventOf entries event → ∀ dots, event.2.op ≠ .nodeRemove x dots := by
  induction entries generalizing alive with
  | nil =>
    cases folded
    simp [EventOf]
  | cons entry rest ih =>
    obtain ⟨effect, known⟩ := effects entry mem_cons_self
    simp only [reduceNodeLiveness, bind_eq_ok] at folded
    obtain ⟨next, first, later⟩ := folded
    obtain ⟨decides, spares⟩ := reduceNodeLivenessOps_spec x 0 _ effect.events
      (entry.effect_parts known).1 alive next first
    obtain ⟨decides', spares'⟩ := ih
      (forall_mem_cons.mp effects).2 next later
    simp only [eventOf_cons known]
    constructor
    · rw [decides', decides, or_assoc]
      apply or_congr_right
      constructor
      · rintro (⟨event, member, added⟩ | ⟨event, happened, added⟩)
        · exact ⟨event, Or.inl member, added⟩
        · exact ⟨event, Or.inr happened, added⟩
      · rintro ⟨event, member | happened, added⟩
        · exact Or.inl ⟨event, member, added⟩
        · exact Or.inr ⟨event, happened, added⟩
    · rintro event (member | happened)
      · exact spares event member
      · exact spares' event happened

namespace CheckpointTailOpticSource

variable {source : CheckpointTailOpticSource V} {basis : CheckpointTailIndexBasis V}
  {base full : WarpState V}

theorem Describes.loadBasis (describes : source.Describes basis base full) :
    source.loadBasis = .ok basis := by
  rw [CheckpointTailOpticSource.loadBasis, describes.head]
  rfl

theorem eventOf_collected {tail} {frontier} (source : CheckpointTailOpticSource V)
    (collected : source.collectTail frontier (fun entry => someOp test entry.patch.ops) =
      .ok tail) (event) (concerns : test event.2.op = true) :
    EventOf tail event ↔ source.TailEvent frontier event := by
  constructor
  · rintro ⟨entry, member, effect, known, listed⟩
    exact ⟨entry, ((source.mem_collectTail collected).mp member).1, effect, known, listed⟩
  · rintro ⟨entry, later, effect, known, listed⟩
    have included := (includes_iff known).mpr ⟨event, listed, concerns⟩
    exact ⟨entry, (source.mem_collectTail collected).mpr ⟨later, included⟩, effect, known, listed⟩

theorem Describes.effects_of_collected {tail} (describes : source.Describes basis base full)
    (collected : source.collectTail basis.frontier includeEntry = .ok tail) :
    ∀ entry ∈ tail, ∃ effect, entry.effect = .ok effect := by
  intro entry mem
  exact describes.effect_of_tail ((source.mem_collectTail collected).mp mem).1

theorem readNode_spec (describes : source.Describes basis base full) (x)
    (read : source.readNode x = .ok alive) :
    (alive = true ↔ visibleNode base x = true ∨
      ∃ event, source.TailEvent basis.frontier event ∧ ∃ dot, event.2.op = .nodeAdd x dot) ∧
    ∀ event, source.TailEvent basis.frontier event → ∀ dots, event.2.op ≠ .nodeRemove x dots := by
  -- the node is reported alive if the checkpoint or an add of the tail says so; then no remove
  -- of the tail names it
  simp only [readNode, describes.loadBasis, bind_eq_ok, Except.ok.injEq, exists_eq_left'] at read
  obtain ⟨tail, collected, folded⟩ := read
  obtain ⟨decides, spares⟩ := reduceNodeLiveness_spec x
    (describes.effects_of_collected collected) _ alive folded
  have concerns := fun event test_ => source.eventOf_collected collected event test_
  constructor
  · rw [decides, describes.reflects.alive]
    apply or_congr_right
    apply exists_congr
    intro event
    apply and_congr_left
    intro added
    exact concerns event (by simp [isNodeAddOf_iff.mpr added])
  · intro event happened dots removed
    have relevant : (isNodeAddOf x event.2.op || isNodeRemoveOf x event.2.op) = true := by
      simp [isNodeRemoveOf_iff.mpr ⟨dots, removed⟩]
    exact spares event ((concerns event relevant).mpr happened) dots removed

/-- The tail adds the node with a dot. -/
def TailAdds (source : CheckpointTailOpticSource V) (frontier : Frontier) (x d : JsString) : Prop :=
  ∃ event, source.TailEvent frontier event ∧ ∃ dot, event.2.op = .nodeAdd x dot ∧ d = dot.encode

/-- A remove of the tail, whatever node it names, has observed the dot. -/
def TailObserves (source : CheckpointTailOpticSource V) (frontier : Frontier) (d : JsString) :
    Prop :=
  ∃ event, source.TailEvent frontier event ∧ ∃ node dots, event.2.op = .nodeRemove node dots ∧
    d ∈ dots

theorem Describes.nodeTags (describes : source.Describes basis base full) (x d) :
    d ∈ full.nodeAlive.dotsOf x ↔
      d ∈ base.nodeAlive.dotsOf x ∨ source.TailAdds basis.frontier x d := by
  rw [describes.full_represents.nodeTags, describes.mem_facts (by simp),
    describes.base_represents.nodeTags]
  simp only [nodeTag_mem_facts, TailAdds]

theorem Describes.nodeTombs (describes : source.Describes basis base full) (d) :
    d ∈ full.nodeAlive.tombstones ↔
      d ∈ base.nodeAlive.tombstones ∨ source.TailObserves basis.frontier d := by
  rw [describes.full_represents.nodeTombs, describes.mem_facts (by simp),
    describes.base_represents.nodeTombs]
  simp only [nodeTomb_mem_facts, TailObserves]

/-- The read of a node agrees with the full reduction exactly if nothing speaks for the node, or it
is alive in the checkpoint through a dot that no remove of the tail has observed, or the tail adds
it with a dot that neither the checkpoint nor the tail has removed. -/
theorem optic_liveness_iff (describes : source.Describes basis base full) (x : JsString)
    (alive : Bool) (read : source.readNode x = .ok alive) :
    alive = visibleNode full x ↔
      (visibleNode base x = false ∧ ¬ ∃ d, source.TailAdds basis.frontier x d) ∨
      (∃ d ∈ base.nodeAlive.dotsOf x, d ∉ base.nodeAlive.tombstones ∧
        ¬ source.TailObserves basis.frontier d) ∨
      ∃ d, source.TailAdds basis.frontier x d ∧ d ∉ base.nodeAlive.tombstones ∧
        ¬ source.TailObserves basis.frontier d := by
  have reported := (readNode_spec describes x read).1
  have adds : (∃ event, source.TailEvent basis.frontier event ∧
      ∃ dot, event.2.op = .nodeAdd x dot) ↔ ∃ d, source.TailAdds basis.frontier x d := by
    constructor
    · rintro ⟨event, happened, dot, added⟩
      exact ⟨dot.encode, event, happened, dot, added, rfl⟩
    · rintro ⟨d, event, happened, dot, added, -⟩
      exact ⟨event, happened, dot, added⟩
  rw [adds] at reported
  have shown : visibleNode full x = true ↔
      (∃ d ∈ base.nodeAlive.dotsOf x, d ∉ base.nodeAlive.tombstones ∧
        ¬ source.TailObserves basis.frontier d) ∨
      ∃ d, source.TailAdds basis.frontier x d ∧ d ∉ base.nodeAlive.tombstones ∧
        ¬ source.TailObserves basis.frontier d := by
    rw [visibleNode, ORSet.contains_iff]
    simp only [describes.nodeTags, describes.nodeTombs, not_or, or_and_right, exists_or]
  rw [← shown]
  constructor
  · intro same
    cases there : visibleNode full x with
    | true => exact Or.inr rfl
    | false =>
      -- reported dead: neither the checkpoint nor the tail spoke for the node
      left
      have silent : ¬ (visibleNode base x = true ∨ ∃ d, source.TailAdds basis.frontier x d) := by
        rw [← reported, same, there]
        simp
      rw [not_or, Bool.not_eq_true] at silent
      exact silent
  · rintro (⟨dead, unadded⟩ | there)
    · have gone : visibleNode full x = false := by
        rw [← Bool.not_eq_true, shown]
        rintro (⟨d, tagged, kept, -⟩ | ⟨d, added, -⟩)
        · have alive_ : visibleNode base x = true :=
            base.nodeAlive.contains_iff.mpr ⟨d, tagged, kept⟩
          rw [dead] at alive_
          cases alive_
        · exact unadded ⟨d, added⟩
      rw [gone, ← Bool.not_eq_true, reported, dead]
      simpa using unadded
    · rw [there, reported]
      rcases shown.mp there with ⟨d, tagged, kept, -⟩ | ⟨d, added, -⟩
      · exact Or.inl (base.nodeAlive.contains_iff.mpr ⟨d, tagged, kept⟩)
      · exact Or.inr ⟨d, added⟩

/-! ### Properties -/

theorem addTailPropertyOps_spec (i) (ops events) (found : entry.eventsFrom i ops = .ok events)
    (current result) (writes : LWWRegister V → Prop)
    (before : Winner LWWRegister.eventId writes current)
    (folded : addTailPropertyOps isScalar x k entry i ops current = .ok result) :
    Winner LWWRegister.eventId (fun r => writes r ∨ ∃ event ∈ events,
      event.2.op = .nodePropSet x k r.value ∧ r.eventId = event.1) result := by
  -- whatever was written before, the register of the tail is a greatest write
  induction ops generalizing i events current writes with
  | nil =>
    cases found
    cases folded
    exact before.congr (by simp)
  | cons rawOp rest ih =>
    simp only [addTailPropertyOps, bind_eq_ok] at folded
    obtain ⟨normalized, normal, next, stepped, folded⟩ := folded
    rcases eventsFrom_cons entry found with
      ⟨same, found⟩ | ⟨eventId, canonOp, events', same, created, later, rfl⟩
    · cases normal.symm.trans same
      cases stepped
      exact ih (i + 1) events found current writes before folded
    · cases normal.symm.trans same
      change addTailPropertyOperationRegister isScalar x k entry i current canonOp.op = .ok next
        at stepped
      -- the writes that the operation adds
      have taken : Winner LWWRegister.eventId (fun r => writes r ∨
          canonOp.op = .nodePropSet x k r.value ∧ r.eventId = eventId) next := by
        by_cases target : isPropertyOf x k canonOp.op = true
        · obtain ⟨value, op⟩ := isPropertyOf_iff.mp target
          rw [op] at stepped ⊢
          simp only [addTailPropertyOperationRegister, and_self, if_true, created, bind_eq_ok,
            Except.ok.injEq, exists_eq_left'] at stepped
          split at stepped
          · cases stepped
            rw [lwwMax_eq_later]
            apply (before.later winner_single).congr
            intro r
            apply or_congr_right
            obtain ⟨stamp, written⟩ := r
            simp only [LWWRegister.mk.injEq, Op.nodePropSet.injEq, true_and]
            constructor
            · rintro ⟨a, b⟩
              exact ⟨b.symm, a⟩
            · rintro ⟨a, b⟩
              exact ⟨b, a.symm⟩
          · cases stepped
        · have other : ∀ value, canonOp.op ≠ .nodePropSet x k value :=
            fun value op => target (isPropertyOf_iff.mpr ⟨value, op⟩)
          have kept : next = current := by
            cases op : canonOp.op with
            | nodePropSet node key value =>
              rw [op, addTailPropertyOperationRegister, if_neg] at stepped
              · cases stepped
                rfl
              · rintro ⟨rfl, rfl⟩
                exact other value op
            | _ =>
              rw [op] at stepped
              cases stepped
              rfl
          rw [kept]
          exact before.congr (by simp [other])
      apply (ih (i + 1) events' later next _ taken folded).congr
      intro r
      simp only [mem_cons, exists_eq_or_imp, or_assoc]

theorem tailPropertyRegister_spec (effects : ∀ entry ∈ entries, ∃ effect, entry.effect = .ok effect)
    (current result) (writes : LWWRegister V → Prop)
    (before : Winner LWWRegister.eventId writes current)
    (folded : tailPropertyRegister isScalar x k entries current = .ok result) :
    Winner LWWRegister.eventId (fun r => writes r ∨ ∃ event, EventOf entries event ∧
      event.2.op = .nodePropSet x k r.value ∧ r.eventId = event.1) result := by
  induction entries generalizing current writes with
  | nil =>
    cases folded
    exact before.congr (by simp [EventOf])
  | cons entry rest ih =>
    obtain ⟨effect, known⟩ := effects entry mem_cons_self
    simp only [tailPropertyRegister, bind_eq_ok] at folded
    obtain ⟨next, first, later⟩ := folded
    have taken := addTailPropertyOps_spec 0 _ effect.events
      (entry.effect_parts known).1 current next writes before first
    apply (ih (forall_mem_cons.mp effects).2 next _ taken later).congr
    intro r
    simp only [eventOf_cons known, or_assoc, or_and_right, exists_or]

/-- The tail writes the property. -/
def TailWrites (source : CheckpointTailOpticSource V) (frontier : Frontier) (x k : JsString)
    (r : LWWRegister V) : Prop :=
  ∃ event, source.TailEvent frontier event ∧ event.2.op = .nodePropSet x k r.value ∧
    r.eventId = event.1

/-- A state has a register of the property, whether or not its node is alive. -/
def Registered (s : WarpState V) (x k : JsString) (r : LWWRegister V) : Prop :=
  ValidId x ∧ ValidId k ∧ s.prop.get (encodePropKey x k) = some r

theorem write_mem_facts {canonOp : CanonicalOp V} (validNode : ValidId x) (validKey : ValidId k) (r) :
    .write (encodePropKey x k) r ∈ canonOp.op.facts e ↔
      canonOp.op = .nodePropSet x k r.value ∧ r.eventId = e := by
  have ids := canonOp.validIds
  obtain ⟨op, checked⟩ := canonOp
  cases op with
  | nodePropSet node key value =>
    simp only [Op.facts, Set.mem_singleton_iff, Fact.write.injEq, Op.nodePropSet.injEq]
    constructor
    · rintro ⟨same, rfl⟩
      obtain ⟨rfl, rfl⟩ := encodePropKey_inj validNode (ids node (by simp [Op.ids])) validKey
        (ids key (by simp [Op.ids])) same
      exact ⟨⟨rfl, rfl, rfl⟩, rfl⟩
    · rintro ⟨⟨rfl, rfl, rfl⟩, rfl⟩
      exact ⟨rfl, rfl⟩
  | edgePropSet src dst label key value =>
    simp only [Op.facts, Set.mem_singleton_iff, Fact.write.injEq, reduceCtorEq, false_and,
      iff_false, not_and]
    intro same
    exact absurd same.symm (encodeEdgePropKey_ne_encodePropKey validNode)
  | nodeAdd node dot | nodeRemove node dots | edgeAdd src dst label dot
  | edgeRemove src dst label dots | blobValue node oid => simp [Op.facts]

/-- The register after the whole history, of those of the checkpoint and of the tail. -/
theorem Describes.register (describes : source.Describes basis base full) (validNode : ValidId x)
    (validKey : ValidId k) (tail)
    (wins : Winner LWWRegister.eventId (source.TailWrites basis.frontier x k) tail) :
    full.prop.get (encodePropKey x k) =
        later LWWRegister.eventId (base.prop.get (encodePropKey x k)) tail ∧
      ∀ r0 r, base.prop.get (encodePropKey x k) = some r0 → tail = some r →
        r0.eventId = r.eventId → r0 = r := by
  have stamped := (source.store.consistent_streams ⟨source.refs, none⟩).oneWritePerEvent
    (encodePropKey x k)
  have before := describes.base_represents.writes (encodePropKey x k)
  have either : ∀ r, Fact.write (encodePropKey x k) r ∈
      historyFacts (source.store.streamForFrontier ⟨source.refs, none⟩) ↔
        Fact.write (encodePropKey x k) r ∈
          historyFacts (source.store.streamForFrontier ⟨basis.frontier, none⟩) ∨
        source.TailWrites basis.frontier x k r := by
    intro r
    rw [describes.mem_facts (by simp)]
    simp only [write_mem_facts validNode validKey, TailWrites]
  constructor
  · apply Winner.unique stamped (describes.full_represents.writes _)
    exact (before.later wins).congr fun r => (either r).symm
  · rintro r0 r held rfl same
    rw [held] at before
    exact stamped r0 r ((either r0).mpr (Or.inl before.1)) ((either r).mpr (Or.inr wins.1)) same

theorem readNodeProperty_spec (describes : source.Describes basis base full)
    (read : source.readNodeProperty isScalar x k = .ok value) :
    ∃ register, Winner LWWRegister.eventId (source.TailWrites basis.frontier x k) register ∧
      value = register.elim (basis.tree.property x k) fun r => some r.value := by
  -- the value of the tail's greatest write is reported, else the value that the index of the
  -- checkpoint has
  simp only [readNodeProperty, describes.loadBasis, describes.reflects.sound.getNodeProps,
    bind_eq_ok, Except.ok.injEq, exists_eq_left'] at read
  obtain ⟨tail, collected, combined⟩ := read
  simp only [reduceProperty, bind_eq_ok] at combined
  obtain ⟨register, folded, whole⟩ := combined
  cases whole
  refine ⟨register, ?_, rfl⟩
  have wins := tailPropertyRegister_spec
    (describes.effects_of_collected collected) none register (fun _ => False)
    (fun _ => id) folded
  apply wins.congr
  intro r
  rw [false_or, TailWrites]
  apply exists_congr
  intro event
  apply and_congr_left
  intro written
  exact source.eventOf_collected collected event
    (isPropertyOf_iff.mpr ⟨_, written.1⟩)

theorem mem_visibleProps_registered (keyed : s.Keyed) (x k) (v : V) :
    ⟨x, k, v⟩ ∈ visibleProps s ↔
      visibleNode s x = true ∧ ∃ r, Registered s x k r ∧ r.value = v := by
  rw [mem_visibleProps_iff s keyed]
  constructor
  · rintro ⟨validNode, validKey, visible, r, found, rfl⟩
    exact ⟨visible, r, ⟨validNode, validKey, found⟩, rfl⟩
  · rintro ⟨visible, r, ⟨validNode, validKey, found⟩, rfl⟩
    exact ⟨validNode, validKey, visible, r, found, rfl⟩

theorem Describes.indexed (describes : source.Describes basis base full) (x k) (v : V) :
    basis.tree.property x k = some v ↔
      visibleNode base x = true ∧ ∃ r, Registered base x k r ∧ r.value = v := by
  have keyed := describes.base_keyed
  cases visible : visibleNode base x with
  | false =>
    rw [IndexTree.build_property keyed _ describes.built visible]
    simp
  | true =>
    obtain ⟨d, tagged, -⟩ := base.nodeAlive.contains_iff.mp visible
    have validNode := keyed.nodes x d tagged
    rw [describes.reflects.shows.property keyed visible]
    by_cases validKey : ValidId k
    · rw [WarpState.nodeProperty, Option.map_eq_some_iff]
      simp [Registered, validNode, validKey]
    · rw [keyed.nodeProperty_eq_none validNode validKey]
      simp [Registered, validKey]

theorem registered_of_tailWrites {frontier} (r) (written : source.TailWrites frontier x k r) :
    ValidId x ∧ ValidId k := by
  obtain ⟨event, -, op, -⟩ := written
  have ids := event.2.validIds
  rw [op] at ids
  exact ⟨ids x (by simp [Op.ids]), ids k (by simp [Op.ids])⟩

theorem Describes.registered_unwritten (describes : source.Describes basis base full)
    (unwritten : ∀ r, ¬ source.TailWrites basis.frontier x k r) (r) :
    Registered full x k r ↔ Registered base x k r := by
  apply and_congr_right
  intro validNode
  apply and_congr_right
  intro validKey
  rw [(describes.register validNode validKey none unwritten).1]
  cases base.prop.get (encodePropKey x k) <;> rfl

/-- The read of a property agrees with the full reduction exactly if the tail does not write it and
the prefix did not either or the liveness of the node is as it was, or the tail writes it, the node
is alive and no greater write of the prefix has another value. -/
theorem optic_property_iff (isScalar : V → Bool) (describes : source.Describes basis base full)
    (x k : JsString) (value : Option V) (read : source.readNodeProperty isScalar x k = .ok value) :
    (∀ v, value = some v ↔ ⟨x, k, v⟩ ∈ visibleProps full) ↔
      ((∀ r, ¬ source.TailWrites basis.frontier x k r) ∧
        ((∀ r, ¬ Registered base x k r) ∨ visibleNode base x = visibleNode full x)) ∨
      (visibleNode full x = true ∧ ∃ r, source.TailWrites basis.frontier x k r ∧
        (∀ r', source.TailWrites basis.frontier x k r' → r'.eventId ≤ r.eventId) ∧
        ∀ r0, Registered base x k r0 → r.eventId < r0.eventId → r0.value = r.value) := by
  obtain ⟨register, wins, rfl⟩ := readNodeProperty_spec describes read
  simp only [mem_visibleProps_registered describes.full_keyed]
  cases register with
  | none =>
    have unwritten : ∀ r, ¬ source.TailWrites basis.frontier x k r := wins
    have nowhere : ¬ ∃ r, source.TailWrites basis.frontier x k r ∧
        (∀ r', source.TailWrites basis.frontier x k r' → r'.eventId ≤ r.eventId) ∧
        ∀ r0, Registered base x k r0 → r.eventId < r0.eventId → r0.value = r.value :=
      fun ⟨r, written, _⟩ => unwritten r written
    rw [or_iff_left fun both => nowhere both.2, and_iff_right unwritten]
    simp only [Option.elim_none, describes.indexed, describes.registered_unwritten unwritten]
    constructor
    · intro same
      by_cases held : ∃ r, Registered base x k r
      · -- a register that one of the two shows is shown by the other
        obtain ⟨r, registered⟩ := held
        right
        rw [Bool.eq_iff_iff]
        constructor
        · exact fun visible => ((same r.value).mp ⟨visible, r, registered, rfl⟩).1
        · exact fun visible => ((same r.value).mpr ⟨visible, r, registered, rfl⟩).1
      · exact Or.inl fun r registered => held ⟨r, registered⟩
    · rintro (bare | same) v
      · constructor
        · rintro ⟨-, r, registered, -⟩
          exact absurd registered (bare r)
        · rintro ⟨-, r, registered, -⟩
          exact absurd registered (bare r)
      · rw [same]
  | some r =>
    obtain ⟨written, greatest⟩ := wins
    obtain ⟨validNode, validKey⟩ := registered_of_tailWrites r written
    obtain ⟨whole, stamped⟩ :=
      describes.register validNode validKey (some r) ⟨written, greatest⟩
    have not_none : ¬ ∀ r, ¬ source.TailWrites basis.frontier x k r := fun none_ => none_ r written
    rw [or_iff_right fun both => not_none both.1]
    simp only [Option.elim_some, Option.some.injEq]
    -- the register of the whole history is that of the tail unless the checkpoint's is greater
    have full_register : ∀ rF, Registered full x k rF ↔
        later LWWRegister.eventId (base.prop.get (encodePropKey x k)) (some r) = some rF := by
      intro rF
      rw [Registered, whole]
      exact ⟨fun all => all.2.2, fun found => ⟨validNode, validKey, found⟩⟩
    have exactly : (∃ rF, Registered full x k rF ∧ rF.value = r.value) ↔
        ∀ r0, Registered base x k r0 → r.eventId < r0.eventId → r0.value = r.value := by
      simp only [full_register]
      cases held : base.prop.get (encodePropKey x k) with
      | none => simp [later, Registered, held]
      | some r0 =>
        have only : ∀ r', Registered base x k r' ↔ r0 = r' := by
          intro r'
          simp [Registered, validNode, validKey, held]
        simp only [later, only, forall_eq']
        split
        next below =>
          simp only [Option.some.injEq, exists_eq_left']
          rcases lt_or_eq_of_le below with above | equal
          · exact ⟨fun same _ => same, fun same => same above⟩
          · rw [stamped r0 r held rfl equal.symm]
            simp
        next above =>
          simp only [Option.some.injEq, exists_eq_left', true_iff]
          intro below
          exact absurd (le_of_lt below) above
    constructor
    · intro same
      obtain ⟨visible, found⟩ := (same r.value).mp rfl
      exact ⟨visible, r, written, greatest, exactly.mp found⟩
    · rintro ⟨visible, r', written', greatest', agrees⟩ v
      -- the greatest write of the tail is unique
      have same : r' = r := by
        have distinct := (source.store.consistent_streams ⟨source.refs, none⟩).oneWritePerEvent
          (encodePropKey x k)
        obtain ⟨event, happened, op, stamp⟩ := written
        obtain ⟨event', happened', op', stamp'⟩ := written'
        apply distinct r' r
        · exact (describes.mem_facts (by simp)).mpr (Or.inr ⟨event', happened',
            (write_mem_facts validNode validKey r').mpr ⟨op', stamp'⟩⟩)
        · exact (describes.mem_facts (by simp)).mpr (Or.inr ⟨event, happened,
            (write_mem_facts validNode validKey r).mpr ⟨op, stamp⟩⟩)
        · exact le_antisymm (greatest r' ⟨event', happened', op', stamp'⟩)
            (greatest' r ⟨event, happened, op, stamp⟩)
      rw [same] at agrees
      obtain ⟨rF, registered, value⟩ := exactly.mpr agrees
      constructor
      · rintro rfl
        exact ⟨visible, rF, registered, value⟩
      · rintro ⟨-, rF', registered', rfl⟩
        have one := ((full_register rF).mp registered).symm.trans ((full_register rF').mp registered')
        rw [← value, Option.some.inj one]

/-! ### A remove that arrives before its add -/

def addN : PatchLike Nat :=
  ⟨lit "a", 1, [.runtime ⟨.nodeAdd (lit "n") ⟨lit "a", 1, a_named, Nat.one_pos⟩, by decide⟩],
    .absent⟩

/-- Removes what `addN` adds. -/
def removeThatDot : CanonicalOp Nat := ⟨.nodeRemove (lit "n") [lit "a:1"], by decide⟩

def removeOtherDot : CanonicalOp Nat := ⟨.nodeRemove (lit "n") [lit "c:1"], by decide⟩

def removeN (remove : CanonicalOp Nat) : PatchLike Nat :=
  ⟨lit "b", 2, [.runtime remove], .absent⟩

/-- Two writers with one commit each; only the remove was there at the checkpoint. -/
def removedEarly (remove : CanonicalOp Nat) : CheckpointTailOpticSource Nat where
  store :=
    { commits := [(lit "bbbb", ⟨none, removeN remove⟩), (lit "aaaa", ⟨none, addN⟩)]
      nodup := twoShas_nodup
      closed := by simp [ParentsStored] }
  refs := .ofList [(lit "a", lit "aaaa"), (lit "b", lit "bbbb")]
  checkpoint := some ⟨.ofList [(lit "b", lit "bbbb")], .empty⟩
  maxTailPatches := 10000

/-- The checkpoint has removed the dot of the node already; its index does not remember that. -/
theorem optic_revives_removed_node :
    ∃ basis base full, (removedEarly removeThatDot).Describes basis base full ∧
      (removedEarly removeThatDot).readNode (lit "n") = .ok true ∧ visibleNode full (lit "n") = false := by
  refine ⟨_, _, _, ⟨rfl, ?_, rfl, rfl, rfl⟩, ?_, ?_⟩
  · decide
  · rfl
  · decide

theorem removedEarly_unobserved :
    ¬ (removedEarly removeOtherDot).TailObserves (.ofList [(lit "b", lit "bbbb")]) (lit "a:1") := by
  rintro ⟨event, ⟨entry, ⟨w, tip, found, mem⟩, effect, known, listed⟩, node, dots, removed, -⟩
  have refs : (w, tip) ∈ [(lit "a", lit "aaaa"), (lit "b", lit "bbbb")] :=
    ((removedEarly removeOtherDot).refs.mem_entries_iff w).mpr found
  simp only [mem_cons, not_mem_nil, or_false, Prod.mk.injEq] at refs
  rcases refs with ⟨rfl, rfl⟩ | ⟨rfl, rfl⟩
  · -- the only patch of the tail adds the node
    have only : entry = ⟨addN, lit "aaaa"⟩ := mem_singleton.mp mem
    subst only
    cases known
    cases mem_singleton.mp listed
    cases removed
  · cases mem

theorem optic_liveness_iff_sample :
    ∃ basis base full, (removedEarly removeOtherDot).Describes basis base full ∧
      (removedEarly removeOtherDot).readNode (lit "n") = .ok true ∧
      true = visibleNode full (lit "n") := by
  have describes : (removedEarly removeOtherDot).Describes ⟨.ofList [(lit "b", lit "bbbb")], .empty⟩ _ _ :=
    ⟨rfl, by decide, rfl, rfl, rfl⟩
  refine ⟨_, _, _, describes, rfl, (optic_liveness_iff describes (lit "n") true rfl).mpr ?_⟩
  refine Or.inr (Or.inr ⟨lit "a:1", ?_, by decide, removedEarly_unobserved⟩)
  exact ⟨_, ⟨⟨addN, lit "aaaa"⟩, ⟨lit "a", lit "aaaa", rfl, mem_singleton.mpr rfl⟩, _, rfl,
    mem_singleton.mpr rfl⟩, _, rfl, by decide⟩

/-! ### A write that outlives its node -/

def setK : CanonicalOp Nat := ⟨.nodePropSet (lit "n") (lit "k") 7, sampleWrite_check⟩

/-- Two writers with one commit each, of which the checkpoint has that of `b`. -/
def writtenBy (early late : List (PatchOp Nat)) : CheckpointTailOpticSource Nat where
  store :=
    { commits := [(lit "bbbb", ⟨none, ⟨lit "b", 1, early, .absent⟩⟩),
        (lit "aaaa", ⟨none, ⟨lit "a", 1, late, .absent⟩⟩)]
      nodup := twoShas_nodup
      closed := by simp [ParentsStored] }
  refs := .ofList [(lit "a", lit "aaaa"), (lit "b", lit "bbbb")]
  checkpoint := some ⟨.ofList [(lit "b", lit "bbbb")], .empty⟩
  maxTailPatches := 10000

/-- The property is written before the node exists; the index of the checkpoint has no place
for it. -/
def revivedLate : CheckpointTailOpticSource Nat := writtenBy [.runtime setK] addN.ops

theorem optic_forgets_property :
    ∃ basis base full, revivedLate.Describes basis base full ∧
      revivedLate.readNodeProperty (fun _ => true) (lit "n") (lit "k") = .ok none ∧
      ⟨lit "n", lit "k", 7⟩ ∈ visibleProps full := by
  refine ⟨_, _, _, ⟨rfl, ?_, rfl, rfl, rfl⟩, rfl, ?_⟩
  · decide
  · decide

/-- Both the node and its property come after the checkpoint. -/
def bothLate : CheckpointTailOpticSource Nat := writtenBy [] (addN.ops ++ [.runtime setK])

theorem bothLate_writes : ∃ r0 : LWWRegister Nat, r0.value = 7 ∧
    ∀ r, bothLate.TailWrites (.ofList [(lit "b", lit "bbbb")]) (lit "n") (lit "k") r ↔ r = r0 := by
  obtain ⟨effect, known, add, eventId, events⟩ : ∃ effect,
      (⟨⟨lit "a", 1, addN.ops ++ [.runtime setK], .absent⟩, lit "aaaa"⟩ : PatchEntry Nat).effect =
        .ok effect ∧ ∃ add eventId, effect.events =
          [(add, ⟨.nodeAdd (lit "n") ⟨lit "a", 1, a_named, Nat.one_pos⟩, by decide⟩),
            (eventId, setK)] := ⟨_, rfl, _, _, rfl⟩
  refine ⟨⟨eventId, 7⟩, rfl, fun r => ?_⟩
  constructor
  · rintro ⟨event, ⟨entry, ⟨w, tip, found, mem⟩, effect', known', listed⟩, op, stamp⟩
    have refs : (w, tip) ∈ [(lit "a", lit "aaaa"), (lit "b", lit "bbbb")] :=
      (bothLate.refs.mem_entries_iff w).mpr found
    simp only [mem_cons, not_mem_nil, or_false, Prod.mk.injEq] at refs
    rcases refs with ⟨rfl, rfl⟩ | ⟨rfl, rfl⟩
    · have only : entry = ⟨⟨lit "a", 1, addN.ops ++ [.runtime setK], .absent⟩, lit "aaaa"⟩ :=
        mem_singleton.mp mem
      subst only
      rw [known] at known'
      cases known'
      rw [events] at listed
      simp only [mem_cons, not_mem_nil, or_false] at listed
      obtain ⟨stamp', value⟩ := r
      rcases listed with rfl | rfl
      · cases op
      · cases op
        cases stamp
        rfl
    · cases mem
  · rintro rfl
    refine ⟨(eventId, setK), ⟨⟨⟨lit "a", 1, addN.ops ++ [.runtime setK], .absent⟩, lit "aaaa"⟩,
      ⟨lit "a", lit "aaaa", rfl, mem_singleton.mpr rfl⟩, effect, known, ?_⟩, rfl, rfl⟩
    rw [events]
    simp

theorem optic_property_iff_sample :
    ∃ basis base full, bothLate.Describes basis base full ∧
      bothLate.readNodeProperty (fun _ => true) (lit "n") (lit "k") = .ok (some 7) ∧
      ∀ v, some 7 = some v ↔ ⟨lit "n", lit "k", v⟩ ∈ visibleProps full := by
  have describes : bothLate.Describes ⟨.ofList [(lit "b", lit "bbbb")], .empty⟩ _ _ :=
    ⟨rfl, by decide, rfl, rfl, rfl⟩
  obtain ⟨r0, value, only⟩ := bothLate_writes
  refine ⟨_, _, _, describes, rfl, (optic_property_iff (fun _ => true) describes (lit "n") (lit "k")
    (some 7) rfl).mpr (Or.inr ⟨by decide, r0, (only r0).mpr rfl, ?_, ?_⟩)⟩
  · intro r written
    rw [(only r).mp written]
  · -- the checkpoint has no register at all
    rintro r ⟨-, -, found⟩
    cases found

end CheckpointTailOpticSource
end GitWarp
