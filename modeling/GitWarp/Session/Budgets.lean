import GitWarp.Session.Acceptance

/-!
# Budgets of dirty pages

A session writes its pages out in the middle of a run, whenever a call leaves as many
dirty pages as the budget allows. Every call does to the session what it does to two
plain trees, wherever the pages are, so runs under two budgets give the same answers
and the pages that they leave behind show the same.
-/
namespace GitWarp

open Js Lib

/-! ### Calls -/

/-- A method of a session, a patch, or a lookup beside the session. -/
inductive SessionCall
  | contains (which : AliveSet) (element : JsString)
  | dots (which : AliveSet) (element : JsString)
  | elementState (which : AliveSet) (element : JsString)
  | add (which : AliveSet) (element : JsString) (dot : Dot)
  | remove (which : AliveSet) (element : JsString) (observedDots : OrdSet JsString)
  | scan (which : AliveSet)
  | scanElementStates (which : AliveSet)
  | compact (includedVV : VersionVector)
  | applyPatch (mode : ReducerSessionFrame.ReplayMode) (entry : PatchEntry ReducerPropInput)
  | getEncodedProp (encodedKey : JsString)
  | edgeBirthEvent (edgeKey : JsString)
  | observedFrontier

inductive SessionAnswer
  | done
  | present (found : Bool)
  | dots (found : OrdSet JsString)
  | elementState (found : Option ORSetElementState)
  | elements (found : List JsString)
  | elementStates (found : List ORSetElementState)
  | receipt (made : TickReceipt OpOutcome)
  | register (found : Option (LWWRegister ReducerPropInput))
  | birth (found : Option EventId)
  | frontier (found : VersionVector)

namespace ReducerSessionFrame

variable {A : Type} (methods : SessionOps A)

/-- A read, and the session that it leaves. -/
def reading {B : Type} (frame : ReducerSessionFrame A) (answer : B → SessionAnswer)
    (read : Except Failure (B × A)) : Except Failure (SessionAnswer × ReducerSessionFrame A) := do
  let (found, session) ← read
  pure (answer found, { frame with session })

def writing (frame : ReducerSessionFrame A) (write : Except Failure A) :
    Except Failure (SessionAnswer × ReducerSessionFrame A) := do
  let session ← write
  pure (.done, { frame with session })

def call (frame : ReducerSessionFrame A) :
    SessionCall → Except Failure (SessionAnswer × ReducerSessionFrame A)
  | .contains which element => frame.reading .present (methods.contains which element frame.session)
  | .dots which element => frame.reading .dots (methods.dots which element frame.session)
  | .elementState which element =>
    frame.reading .elementState (methods.elementState which element frame.session)
  | .add which element dot => frame.writing (methods.add which element dot frame.session)
  | .remove which element observedDots =>
    frame.writing (methods.remove which element observedDots frame.session)
  | .scan which => frame.reading .elements (methods.scan which frame.session)
  | .scanElementStates which =>
    frame.reading .elementStates (methods.scanElementStates which frame.session)
  | .compact includedVV => frame.writing (methods.compact includedVV frame.session)
  | .applyPatch mode entry => do
    let (receipt, applied) ← frame.applyPatchInSession methods mode entry
    pure (.receipt receipt, applied)
  | .getEncodedProp encodedKey => .ok (.register (frame.prop.get encodedKey), frame)
  | .edgeBirthEvent edgeKey => .ok (.birth (frame.edgeBirthEvent.get edgeKey), frame)
  | .observedFrontier => .ok (.frontier frame.observedFrontier, frame)

/-- What a run of calls shows; a call that throws ends it. -/
def observe : List SessionCall → ReducerSessionFrame A → List (Option SessionAnswer)
  | [], _ => []
  | first :: rest, frame =>
    match frame.call methods first with
    | .error _ => [none]
    | .ok (answer, next) => some answer :: observe rest next

/-- The frame after a run. -/
def after : List SessionCall → ReducerSessionFrame A → Except Failure (ReducerSessionFrame A)
  | [], frame => .ok frame
  | first :: rest, frame => do
    let (_, next) ← frame.call methods first
    after rest next

/-! ### Related sessions -/

variable {methods} {B : Type} {spec : SessionOps A} {impl : SessionOps B} {R : A → B → Prop}

theorem reading_related (related : Related R frame frame') {answer x} {y : Except Failure (C × B)}
    (both : Agree (fun _ _ => True) (fun x y => x.1 = y.1 ∧ R x.2 y.2) x y) :
    Agree (fun _ _ => True) (fun x y => x.1 = y.1 ∧ Related R x.2 y.2) (frame.reading answer x)
      (frame'.reading answer y) := by
  apply both.bind
  rintro ⟨found, session⟩ ⟨found', session'⟩ - - ⟨same, kept⟩
  exact ⟨congrArg answer same, { related with session := kept }⟩

theorem writing_related (related : Related R frame frame') (both : Agree (fun _ _ => True) R x y) :
    Agree (fun _ _ => True) (fun x y => x.1 = y.1 ∧ Related R x.2 y.2) (frame.writing x)
      (frame'.writing y) := by
  apply both.bind
  intro session session' _ _ kept
  exact ⟨rfl, { related with session := kept }⟩

theorem call_related (refines : spec.Refines impl R) (related : Related R frame frame') (first) :
    Agree (fun _ _ => True) (fun x y => x.1 = y.1 ∧ Related R x.2 y.2) (frame.call spec first)
      (frame'.call impl first) := by
  -- on related sessions a call gives the same answer, or is rejected by both
  have session := related.session
  cases first with
  | contains which element => exact reading_related related (refines.contains _ _ _ _ session)
  | dots which element => exact reading_related related (refines.dots _ _ _ _ session)
  | elementState which element =>
    exact reading_related related (refines.elementState _ _ _ _ session)
  | add which element dot => exact writing_related related (refines.add _ _ _ _ _ session)
  | remove which element observedDots =>
    exact writing_related related (refines.remove _ _ _ _ _ session)
  | scan which => exact reading_related related (refines.scan _ _ _ session)
  | scanElementStates which =>
    exact reading_related related (refines.scanElementStates _ _ _ session)
  | compact includedVV => exact writing_related related (refines.compact _ _ _ session)
  | applyPatch mode entry =>
    apply (applyPatch_related refines related).bind
    rintro ⟨receipt, applied⟩ ⟨receipt', applied'⟩ - - ⟨same, kept⟩
    exact ⟨congrArg SessionAnswer.receipt same, kept⟩
  | getEncodedProp encodedKey =>
    exact ⟨congrArg (fun prop => SessionAnswer.register (prop.get encodedKey)) related.prop, related⟩
  | edgeBirthEvent edgeKey =>
    exact ⟨congrArg (fun births => SessionAnswer.birth (births.get edgeKey)) related.edgeBirthEvent,
      related⟩
  | observedFrontier => exact ⟨congrArg SessionAnswer.frontier related.observedFrontier, related⟩

theorem run_related (refines : spec.Refines impl R) (related : Related R frame frame') :
    observe spec calls frame = observe impl calls frame' ∧
      Agree (fun _ _ => True) (Related R) (after spec calls frame) (after impl calls frame') := by
  -- a run shows the same on related sessions, and leaves them related
  induction calls generalizing frame frame' with
  | nil => exact ⟨rfl, related⟩
  | cons first rest ih =>
    have both := call_related refines related first
    rw [observe, observe, after, after]
    cases called : frame.call spec first with
    | error e =>
      rw [called] at both
      cases called' : frame'.call impl first with
      | error e' => exact ⟨rfl, trivial⟩
      | ok answered' =>
        rw [called'] at both
        exact both.elim
    | ok answered =>
      rw [called] at both
      cases called' : frame'.call impl first with
      | error e' =>
        rw [called'] at both
        exact both.elim
      | ok answered' =>
        rw [called'] at both
        obtain ⟨same, kept⟩ := both
        obtain ⟨later_, ends⟩ := ih kept
        exact ⟨congrArg₂ List.cons (congrArg some same) later_, ends⟩

end ReducerSessionFrame

/-! ### Budgets -/

open ReducerSessionFrame

/-- A frame over a session that is opened with a budget. -/
def ReducerSessionFrame.budgeted {S : Type} {env : TrieEnv S}
    (beside : ReducerSessionFrame StateSessionCloseResult) (s : S) (workspace : Bool)
    (maxDirtyPages : Nat) : ReducerSessionFrame (StateSession env) :=
  { beside with session := StateSession.opened env beside.session s workspace maxDirtyPages }

theorem budgeted_related (beside : ReducerSessionFrame StateSessionCloseResult) {s : S}
    (holds : (StateSession.opened env beside.session s workspace maxDirtyPages).Holds trees) :
    Related (StateSession.Shown workspace) { beside with session := trees }
      (beside.budgeted s workspace maxDirtyPages : ReducerSessionFrame (StateSession env)) where
  session := ⟨holds, rfl⟩
  prop := rfl
  observedFrontier := rfl
  edgeBirthEvent := rfl

/-- Both frames can be closed, and whatever is asked of the pages that they leave gets the
same answers. -/
def ClosesAlike {S : Type} {env : TrieEnv S} (last last' : ReducerSessionFrame (StateSession env)) :
    Prop :=
  ∃ roots st roots' st', last.session.flushAndRetain = .ok (roots, st) ∧
    last'.session.flushAndRetain = .ok (roots', st') ∧
    ∀ workspace maxDirtyPages maxDirtyPages' calls, observe (StateSession.ops env) calls
          (budgeted { last with session := roots } st.store workspace maxDirtyPages) =
        observe (StateSession.ops env) calls
          (budgeted { last' with session := roots' } st'.store workspace maxDirtyPages')

theorem closesAlike_of_related {env : TrieEnv S} (lawful : env.Lawful)
    {last last' : ReducerSessionFrame (StateSession env)}
    (related : Related (StateSession.Shown workspace) frame last)
    (related' : Related (StateSession.Shown workspace) frame last') : ClosesAlike last last' := by
  obtain ⟨roots, s, wrote, reopened⟩ := StateSession.flushAndRetain_spec lawful related.session.1
  obtain ⟨roots', s', wrote', reopened'⟩ := StateSession.flushAndRetain_spec lawful related'.session.1
  refine ⟨roots, _, roots', _, wrote, wrote', ?_⟩
  intro workspace' maxDirtyPages maxDirtyPages' calls
  -- sessions opened on either roots show the trees that the run ended with
  have left := budgeted_related { last with session := roots }
    (reopened workspace' maxDirtyPages)
  have right := budgeted_related { last' with session := roots' } (reopened' workspace' maxDirtyPages')
  have beside : ({ last with session := frame.session } : ReducerSessionFrame SessionTrees) =
      { last' with session := frame.session } := by
    rw [ReducerSessionFrame.mk.injEq]
    exact ⟨rfl, related.prop.symm.trans related'.prop,
      related.observedFrontier.symm.trans related'.observedFrontier,
      related.edgeBirthEvent.symm.trans related'.edgeBirthEvent⟩
  have refines := StateSession.ops_refines lawful workspace'
  exact (run_related refines left).1.symm.trans
    ((congrArg (observe _ calls) beside).trans (run_related refines right).1)

/-- The budget of dirty pages cannot be observed: any run of calls gives the same answers
under two budgets, up to the first call that throws, and the pages that a session leaves
when it is closed show the same. -/
theorem budgets_unobservable {S : Type} (env : TrieEnv S) (lawful : env.Lawful)
    (beside : ReducerSessionFrame StateSessionCloseResult) (s : S) (workspace : Bool)
    (trees : SessionTrees) (maxDirtyPages maxDirtyPages' : Nat)
    (holds : (StateSession.opened env beside.session s workspace maxDirtyPages).Holds trees)
    (calls : List SessionCall) :
    observe (StateSession.ops env) calls (beside.budgeted s workspace maxDirtyPages) =
        observe (StateSession.ops env) calls (beside.budgeted s workspace maxDirtyPages') ∧
      Agree (fun _ _ => True) ClosesAlike
        (after (StateSession.ops env) calls (beside.budgeted s workspace maxDirtyPages))
        (after (StateSession.ops env) calls (beside.budgeted s workspace maxDirtyPages')) := by
  have refines := StateSession.ops_refines lawful workspace
  -- what a session shows when it is opened does not depend on its budget
  have holds' : (StateSession.opened env beside.session s workspace maxDirtyPages').Holds trees :=
    ⟨holds.shown, holds.fits⟩
  obtain ⟨same, ends⟩ := run_related refines
    (budgeted_related beside holds)
  obtain ⟨same', ends'⟩ := run_related refines
    (budgeted_related beside holds')
  refine ⟨same.symm.trans same', ?_⟩
  apply (ends.fork ends').mono
  rintro last last' - - ⟨frame, related, related'⟩
  exact closesAlike_of_related lawful related related'

/-- A node is added under the smallest budget and under one that is never used up. -/
theorem budgets_unobservable_one_node :
    observe (StateSession.ops (memoryEnv .default16way letterBlake3))
        [.add .nodes (lit "a") ⟨lit "w", 1, by decide, by decide⟩, .contains .nodes (lit "a")]
        (budgeted ⟨⟨none, none⟩, .empty, .empty, .empty⟩ [] true 1) =
      observe (StateSession.ops (memoryEnv .default16way letterBlake3))
        [.add .nodes (lit "a") ⟨lit "w", 1, by decide, by decide⟩, .contains .nodes (lit "a")]
        (budgeted ⟨⟨none, none⟩, .empty, .empty, .empty⟩ [] true 1000) :=
  (budgets_unobservable _ (memoryEnv_lawful)
    ⟨⟨none, none⟩, .empty, .empty, .empty⟩ [] true SessionTrees.empty 1 1000
    StateSession.holds_opened_none _).1

end GitWarp
