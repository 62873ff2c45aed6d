import GitWarp.Runtime.Coherence

/-!
# The snapshot index

Snapshots of reduced states are kept under an id, and the id under the key of their
coordinate. The id comes from the hash of what the state shows, so two coordinates
that show the same graph share it: publishing the second one puts its record under
the id that the key of the first one points to.
-/
namespace GitWarp

open Js Lib List OrdMap

variable {V : Type}

/-! ### Records and their keys -/

inductive SnapshotRetention
  | evictable
  | pinned
  deriving DecidableEq

inductive ProvenancePosture
  | full
  | degraded
  deriving DecidableEq

structure WarpStateSnapshotRecord (V : Type) where
  snapshotId : JsString
  coordinate : Coordinate
  retention : SnapshotRetention
  provenancePosture : ProvenancePosture
  stateHash : JsString
  payloadRef : JsString
  createdAt : JsString
  lastAccessedAt : Option JsString
  indexTreeOid : Option JsString
  state : Option (WarpState V)

def colon : CodeUnit := digitUnit ':'

def pipe : CodeUnit := digitUnit '|'

def frontierPart (entry : JsString × JsString) : JsString := entry.1 ++ colon :: entry.2

def ceilingText : Option Nat → JsString
  | none => lit "null"
  | some ceiling => numberText ceiling

/-- The ceiling and the tips of the frontier, sorted by writer. -/
def coordinateKey (coordinate : Coordinate) : JsString :=
  ceilingText coordinate.ceiling ++
    pipe :: join pipe ((sortBy Prod.fst coordinate.frontier.entries).map frontierPart)

def recencyTimestamp (candidate : WarpStateSnapshotRecord V) : JsString :=
  candidate.lastAccessedAt.getD candidate.createdAt

/-- Records are compared by their last use, then by id. -/
def recencyOrder (candidate : WarpStateSnapshotRecord V) : JsString ×ₗ JsString :=
  toLex (recencyTimestamp candidate, candidate.snapshotId)

/-! ### The index -/

structure WarpStateSnapshotIndex (V : Type) where
  byId : OrdMap JsString (WarpStateSnapshotRecord V)
  byCoordinateKey : OrdMap JsString JsString

namespace WarpStateSnapshotIndex

def empty : WarpStateSnapshotIndex V := ⟨.empty, .empty⟩

def upsert (index : WarpStateSnapshotIndex V) (snapshot : WarpStateSnapshotRecord V) :
    WarpStateSnapshotIndex V where
  byId := index.byId.set snapshot.snapshotId snapshot
  byCoordinateKey :=
    index.byCoordinateKey.set (coordinateKey snapshot.coordinate) snapshot.snapshotId

def findById (index : WarpStateSnapshotIndex V) (snapshotId : JsString) :
    Option (WarpStateSnapshotRecord V) :=
  index.byId.get snapshotId

def findExact (index : WarpStateSnapshotIndex V) (coordinate : Coordinate) :
    Option (WarpStateSnapshotRecord V) :=
  match index.byCoordinateKey.get (coordinateKey coordinate) with
  | none => none
  | some snapshotId => index.byId.get snapshotId

/-- The body of the loop of `pruneEvictable`: both entries of a record go. -/
def remove (index : WarpStateSnapshotIndex V) (snapshot : WarpStateSnapshotRecord V) :
    WarpStateSnapshotIndex V where
  byId := index.byId.delete snapshot.snapshotId
  byCoordinateKey := index.byCoordinateKey.delete (coordinateKey snapshot.coordinate)

/-- The records to remove, the ones used longest ago first. -/
def toRemove (index : WarpStateSnapshotIndex V) (maxEntries : Nat) :
    List (WarpStateSnapshotRecord V) :=
  let evictable := sortBy recencyOrder
    (index.byId.values.filter fun snapshot => decide (snapshot.retention = .evictable))
  if evictable.length ≤ maxEntries then [] else evictable.take (evictable.length - maxEntries)

def pruneEvictable (index : WarpStateSnapshotIndex V) (maxEntries : Nat) :
    WarpStateSnapshotIndex V :=
  (index.toRemove maxEntries).foldl remove index

end WarpStateSnapshotIndex

/-- What the materializer puts for a state: the id is the state hash under a fixed word. -/
def publishedSnapshot (stateHash : JsString) (coordinate : Coordinate) (state : WarpState V) :
    WarpStateSnapshotRecord V where
  snapshotId := lit "snapshot:" ++ stateHash
  coordinate := coordinate
  retention := .evictable
  provenancePosture := .degraded
  stateHash := stateHash
  payloadRef := lit "snapshot:" ++ stateHash
  createdAt := lit "materialize-controller"
  lastAccessedAt := none
  indexTreeOid := none
  state := some state

/-- `_publishSnapshot`: a materialization without a frontier is not kept. -/
def publishSnapshot (index : WarpStateSnapshotIndex V) (state : WarpState V)
    (stateHash : JsString) (ceiling : Option Nat) (frontier : Option Frontier) :
    WarpStateSnapshotIndex V :=
  match frontier with
  | none => index
  | some frontier => index.upsert (publishedSnapshot stateHash ⟨frontier, ceiling⟩ state)

/-! ### Keys -/

/-- Names that the writer of a key cannot mix up. -/
structure Coordinate.Named (coordinate : Coordinate) : Prop where
  entries : ∀ entry ∈ coordinate.frontier.entries, colon ∉ entry.1 ∧ pipe ∉ entry.1 ∧ pipe ∉ entry.2
  ceiling : ∀ ceiling, coordinate.ceiling = some ceiling → ceiling < 10 ^ 21

theorem Coordinate.equals_of_spec (a b : Coordinate) (ceiling : a.ceiling = b.ceiling)
    (frontier : ∀ w, a.frontier.get w = b.frontier.get w) : a.equals b = true := by
  have entries : a.frontier.entries.Perm b.frontier.entries := by
    apply (perm_ext_iff_of_nodup a.frontier.nodup.of_map b.frontier.nodup.of_map).mpr
    rintro ⟨w, tip⟩
    rw [mem_entries_iff, mem_entries_iff, frontier]
  simp only [Coordinate.equals, Bool.and_eq_true, decide_eq_true_eq, all_eq_true]
  refine ⟨⟨ceiling, entries.length_eq⟩, ?_⟩
  rintro ⟨w, tip⟩ mem
  rw [← frontier]
  exact (a.frontier.mem_entries_iff w).mp mem

theorem sortBy_frontier_congr {f g : Frontier} (same : ∀ w, f.get w = g.get w) :
    sortBy Prod.fst f.entries = sortBy Prod.fst g.entries := by
  apply (sortBy_eq_iff Prod.fst f.nodup g.nodup).mpr
  rintro ⟨w, tip⟩
  rw [mem_entries_iff, mem_entries_iff, same]

theorem coordinateKey_congr (same : a.equals b = true) : coordinateKey a = coordinateKey b := by
  obtain ⟨ceiling, frontier⟩ := Coordinate.equals_spec a b same
  rw [coordinateKey, coordinateKey, ceiling, sortBy_frontier_congr frontier]

theorem split_at_first {left right after after' : JsString} (absent : separator ∉ left)
    (absent' : separator ∉ right) (same : left ++ separator :: after = right ++ separator :: after') :
    left = right ∧ after = after' := by
  induction left generalizing right with
  | nil =>
    cases right with
    | nil => exact ⟨rfl, tail_eq_of_cons_eq same⟩
    | cons u rest =>
      -- the second text would have to start with the separator
      obtain ⟨rfl, -⟩ := List.cons.inj same
      exact absurd mem_cons_self absent'
  | cons u rest ih =>
    cases right with
    | nil =>
      obtain ⟨rfl, -⟩ := List.cons.inj same
      exact absurd mem_cons_self absent
    | cons v rest' =>
      obtain ⟨rfl, tails⟩ := List.cons.inj same
      simp only [mem_cons, not_or] at absent absent'
      obtain ⟨rfl, afters⟩ := ih absent.2 absent'.2 tails
      exact ⟨rfl, afters⟩

theorem pipe_not_mem_ceilingText (small : ∀ n, ceiling = some n → n < 10 ^ 21) :
    pipe ∉ ceilingText ceiling := by
  cases ceiling with
  | none => decide
  | some n =>
    rw [ceilingText, numberText, if_pos (small n rfl)]
    intro mem
    have digit := digit_of_mem_decimalText mem
    revert digit
    decide

theorem ceilingText_inj (small : ∀ n, a = some n → n < 10 ^ 21)
    (small' : ∀ n, b = some n → n < 10 ^ 21) (same : ceilingText a = ceilingText b) : a = b := by
  -- no digit is a letter
  have apart : ∀ n, n < 10 ^ 21 → ceilingText (some n) ≠ ceilingText none := by
    intro n bound equal
    simp only [ceilingText, numberText, if_pos bound] at equal
    have mem : digitUnit 'n' ∈ decimalText n := by
      rw [equal]
      decide
    have digit := digit_of_mem_decimalText mem
    revert digit
    decide
  cases a with
  | none =>
    cases b with
    | none => rfl
    | some n => exact absurd same.symm (apart n (small' n rfl))
  | some m =>
    cases b with
    | none => exact absurd same (apart m (small m rfl))
    | some n =>
      simp only [ceilingText, numberText, if_pos (small m rfl), if_pos (small' n rfl)] at same
      exact congrArg some (decimalText_injective same)

theorem join_parts_inj {parts parts' : List JsString} (absent : ∀ part ∈ parts, pipe ∉ part)
    (absent' : ∀ part ∈ parts', pipe ∉ part) (solid : ∀ part ∈ parts, part ≠ [])
    (solid' : ∀ part ∈ parts', part ≠ []) (same : join pipe parts = join pipe parts') :
    parts = parts' := by
  -- an empty list of parts is joined to the empty text, and no other one is
  have nonempty : ∀ part (rest : List JsString), part ≠ [] → join pipe (part :: rest) ≠ [] := by
    intro part rest some_ none_
    cases rest with
    | nil => exact some_ none_
    | cons next rest => simp [join] at none_
  cases parts with
  | nil =>
    cases parts' with
    | nil => rfl
    | cons part rest => exact absurd same.symm (nonempty part rest (solid' part mem_cons_self))
  | cons part rest =>
    cases parts' with
    | nil => exact absurd same (nonempty part rest (solid part mem_cons_self))
    | cons part' rest' =>
      rw [← split_join (cons_ne_nil _ _) absent, same, split_join (cons_ne_nil _ _) absent']

theorem map_frontierPart_inj {entries entries' : List (JsString × JsString)}
    (absent : ∀ entry ∈ entries, colon ∉ entry.1) (absent' : ∀ entry ∈ entries', colon ∉ entry.1)
    (same : entries.map frontierPart = entries'.map frontierPart) : entries = entries' := by
  induction entries generalizing entries' with
  | nil => exact (map_eq_nil_iff.mp same.symm).symm
  | cons entry rest ih =>
    cases entries' with
    | nil => cases same
    | cons entry' rest' =>
      obtain ⟨here, later⟩ := List.cons.inj same
      -- a writer ends at the first colon of its part
      obtain ⟨writers, tips⟩ := split_at_first (absent entry mem_cons_self)
        (absent' entry' mem_cons_self) here
      have equal := ih (forall_mem_cons.mp absent).2
        (fun e mem => absent' e (mem_cons_of_mem _ mem)) later
      rw [equal, Prod.ext writers tips]

theorem coordinateKey_inj (left : a.Named) (right : b.Named)
    (same : coordinateKey a = coordinateKey b) : a.equals b = true := by
  -- with writers free of `:` and `|` and tips free of `|`, the key tells the coordinate
  have listed : ∀ (c : Coordinate), c.Named → ∀ entry ∈ sortBy Prod.fst c.frontier.entries,
      colon ∉ entry.1 ∧ pipe ∉ entry.1 ∧ pipe ∉ entry.2 := by
    intro c named entry mem
    exact named.entries entry ((mem_sortBy Prod.fst _ entry).mp mem)
  have parted : ∀ (c : Coordinate), c.Named →
      ∀ part ∈ (sortBy Prod.fst c.frontier.entries).map frontierPart, pipe ∉ part ∧ part ≠ [] := by
    intro c named part mem
    obtain ⟨entry, inside, rfl⟩ := mem_map.mp mem
    obtain ⟨-, writer, tip⟩ := listed c named entry inside
    refine ⟨?_, by simp [frontierPart]⟩
    have apart : pipe ≠ colon := by decide
    simp [frontierPart, writer, tip, apart]
  obtain ⟨ceilings, joined⟩ := split_at_first (pipe_not_mem_ceilingText left.ceiling)
    (pipe_not_mem_ceilingText right.ceiling) same
  have parts := join_parts_inj (fun part mem => (parted a left part mem).1)
    (fun part mem => (parted b right part mem).1)
    (fun part mem => (parted a left part mem).2)
    (fun part mem => (parted b right part mem).2) joined
  have entries := map_frontierPart_inj (fun entry mem => (listed a left entry mem).1)
    (fun entry mem => (listed b right entry mem).1) parts
  apply Coordinate.equals_of_spec a b (ceilingText_inj left.ceiling right.ceiling ceilings)
  intro w
  apply Option.ext
  intro tip
  rw [← mem_entries_iff, ← mem_entries_iff, ← mem_sortBy Prod.fst, entries, mem_sortBy]

/-! ### What the two maps hold -/

namespace WarpStateSnapshotIndex

/-- A record is under its own id; records and keys are those of snapshots that were put. -/
structure Filed (put : WarpStateSnapshotRecord V → Prop) (index : WarpStateSnapshotIndex V) :
    Prop where
  own : ∀ id record, index.byId.get id = some record → record.snapshotId = id ∧ put record
  keyed : ∀ key id, index.byCoordinateKey.get key = some id →
    ∃ record, put record ∧ coordinateKey record.coordinate = key

/-- Every key points to a record of its own coordinate. -/
def Pointed (index : WarpStateSnapshotIndex V) : Prop :=
  ∀ key id, index.byCoordinateKey.get key = some id →
    ∃ record, index.byId.get id = some record ∧ coordinateKey record.coordinate = key

/-- The id of the snapshot is not one that another key points to. -/
def Apart (index : WarpStateSnapshotIndex V) (snapshot : WarpStateSnapshotRecord V) : Prop :=
  ∀ entry ∈ index.byCoordinateKey.entries, entry.2 = snapshot.snapshotId →
    entry.1 = coordinateKey snapshot.coordinate

instance (index : WarpStateSnapshotIndex V) (snapshot : WarpStateSnapshotRecord V) :
    Decidable (index.Apart snapshot) :=
  inferInstanceAs (Decidable (∀ entry ∈ index.byCoordinateKey.entries, _ → _))

theorem findExact_eq_some {index : WarpStateSnapshotIndex V}
    (found : index.findExact coordinate = some record) :
    ∃ id, index.byCoordinateKey.get (coordinateKey coordinate) = some id ∧
      index.byId.get id = some record := by
  unfold findExact at found
  split at found
  next => cases found
  next id points => exact ⟨id, points, found⟩

theorem findExact_of_points {index : WarpStateSnapshotIndex V} {coordinate id}
    (points : index.byCoordinateKey.get (coordinateKey coordinate) = some id) :
    index.findExact coordinate = index.byId.get id := by
  simp only [findExact, points]

theorem filed_empty :
    (empty : WarpStateSnapshotIndex V).Filed put where
  own := fun id record found => by cases found
  keyed := fun key id found => by cases found

theorem pointed_empty : (empty : WarpStateSnapshotIndex V).Pointed :=
  fun key id found => by cases found

section

variable {put : WarpStateSnapshotRecord V → Prop} {index : WarpStateSnapshotIndex V}

theorem Filed.upsert (filed : index.Filed put) (snapshot) (listed : put snapshot) :
    (index.upsert snapshot).Filed put where
  own := OrdMap.forall_set ⟨rfl, listed⟩ filed.own
  keyed := OrdMap.forall_set ⟨snapshot, listed, rfl⟩ filed.keyed

theorem Filed.remove (filed : index.Filed put) :
    (index.remove snapshot).Filed put where
  own := OrdMap.forall_delete filed.own
  keyed := OrdMap.forall_delete filed.keyed

theorem Pointed.upsert (pointed : index.Pointed) (snapshot) (apart : index.Apart snapshot) :
    (index.upsert snapshot).Pointed := by
  intro key id found
  simp only [WarpStateSnapshotIndex.upsert, get_set] at found ⊢
  split at found
  next same =>
    obtain rfl := Option.some.inj found
    exact ⟨snapshot, if_pos rfl, same⟩
  next other =>
    -- another key keeps its record, since the new one lies under another id
    have elsewhere : snapshot.snapshotId ≠ id := fun same =>
      other (apart (key, id) ((index.byCoordinateKey.mem_entries_iff key).mpr found) same.symm).symm
    rw [if_neg elsewhere]
    exact pointed key id found

theorem Pointed.remove (pointed : index.Pointed)
    (only : ∀ record, index.byId.get snapshot.snapshotId = some record → record = snapshot) :
    (index.remove snapshot).Pointed := by
  intro key id found
  simp only [WarpStateSnapshotIndex.remove, get_delete] at found ⊢
  split at found
  · cases found
  next other =>
    obtain ⟨record, held, own⟩ := pointed key id found
    have elsewhere : snapshot.snapshotId ≠ id := by
      rintro rfl
      obtain rfl := only record held
      exact other own
    rw [if_neg elsewhere]
    exact ⟨record, held, own⟩

theorem Filed.removeAll (filed : index.Filed put) {gone : List (WarpStateSnapshotRecord V)} :
    (gone.foldl WarpStateSnapshotIndex.remove index).Filed put := by
  induction gone generalizing index with
  | nil => exact filed
  | cons snapshot rest ih => exact ih (filed.remove)

theorem Pointed.removeAll (pointed : index.Pointed) {gone : List (WarpStateSnapshotRecord V)}
    (only : ∀ snapshot ∈ gone, ∀ record, index.byId.get snapshot.snapshotId = some record →
      record = snapshot) : (gone.foldl WarpStateSnapshotIndex.remove index).Pointed := by
  induction gone generalizing index with
  | nil => exact pointed
  | cons snapshot rest ih =>
    apply ih (pointed.remove (only snapshot mem_cons_self))
    intro later mem record found
    -- what is left after a removal was there before it
    simp only [WarpStateSnapshotIndex.remove, get_delete] at found
    split at found
    · cases found
    · exact only later (mem_cons_of_mem _ mem) record found

theorem Filed.only_of_mem_toRemove (filed : index.Filed put) (snapshot)
    (mem : snapshot ∈ index.toRemove maxEntries) (record)
    (found : index.byId.get snapshot.snapshotId = some record) : record = snapshot := by
  have value : snapshot ∈ index.byId.values := by
    simp only [toRemove] at mem
    split at mem
    · cases mem
    · have inside := mem_of_mem_take mem
      rw [mem_sortBy] at inside
      exact (mem_filter.mp inside).1
  obtain ⟨⟨id, _⟩, listed, rfl⟩ := mem_map.mp value
  have held := (index.byId.mem_entries_iff id).mp listed
  -- the record of an entry lies under its own id
  obtain ⟨own, -⟩ := filed.own id _ held
  rw [own, held] at found
  exact (Option.some.inj found).symm

theorem Filed.pruneEvictable (filed : index.Filed put) :
    (index.pruneEvictable maxEntries).Filed put :=
  filed.removeAll

theorem Pointed.pruneEvictable (pointed : index.Pointed) (filed : index.Filed put) :
    (index.pruneEvictable maxEntries).Pointed :=
  pointed.removeAll (filed.only_of_mem_toRemove)

theorem Filed.shared_id (filed : index.Filed put) (snapshot) (shared : ¬ index.Apart snapshot) :
    ∃ record, put record ∧ coordinateKey record.coordinate ≠ coordinateKey snapshot.coordinate ∧
      (index.upsert snapshot).findExact record.coordinate = some snapshot := by
  simp only [Apart, not_forall] at shared
  obtain ⟨⟨key, id⟩, member, same, other⟩ := shared
  have points := (index.byCoordinateKey.mem_entries_iff key).mp member
  obtain ⟨record, listed, rfl⟩ := filed.keyed key id points
  refine ⟨record, listed, other, ?_⟩
  have still : (index.upsert snapshot).byCoordinateKey.get (coordinateKey record.coordinate) =
      some id := by
    simp only [WarpStateSnapshotIndex.upsert, get_set, if_neg (Ne.symm other), points]
  rw [findExact_of_points still]
  simp only [WarpStateSnapshotIndex.upsert, get_set, if_pos same.symm]

theorem findExact_upsert_of_key (snapshot)
    (same : coordinateKey snapshot.coordinate = coordinateKey coordinate) :
    (index.upsert snapshot).findExact coordinate = some snapshot := by
  have points : (index.upsert snapshot).byCoordinateKey.get (coordinateKey coordinate) =
      some snapshot.snapshotId := by
    simp only [upsert, get_set, if_pos same]
  rw [findExact_of_points points]
  simp only [upsert, get_set, if_true]

end

end WarpStateSnapshotIndex

/-! ### Runs -/

/-- A publication materializes its coordinate, from whatever base it finds. -/
inductive SnapshotCall
  | publish (coordinate : Coordinate) (base : Base)
  | findExact (coordinate : Coordinate)
  | pruneEvictable (maxEntries : Nat)

/-- The coordinates that a call names. -/
def SnapshotCall.coordinates : SnapshotCall → List Coordinate
  | .publish coordinate _ => [coordinate]
  | .findExact coordinate => [coordinate]
  | .pruneEvictable _ => []

section

variable [StrictEq V]

/-- The state that a materialization of a coordinate hands to the snapshot cache. -/
def Repository.materializeCoordinate (r : Repository V) (target : Coordinate) (base : Base) :
    Except Failure (WarpState V) :=
  (r.replay target false base).reduce.map Prod.fst

namespace WarpStateSnapshotIndex

/-- A materialization that fails publishes nothing. -/
def perform (stateHash : WarpState V → JsString) (r : Repository V)
    (index : WarpStateSnapshotIndex V) : SnapshotCall → WarpStateSnapshotIndex V
  | .publish coordinate base =>
    match r.materializeCoordinate coordinate base with
    | .error _ => index
    | .ok state =>
      publishSnapshot index state (stateHash state) coordinate.ceiling (some coordinate.frontier)
  | .findExact _ => index
  | .pruneEvictable maxEntries => index.pruneEvictable maxEntries

def reach (stateHash : WarpState V → JsString) (r : Repository V) (calls : List SnapshotCall) :
    WarpStateSnapshotIndex V :=
  run (perform stateHash r) empty calls

/-- A publication does not meet its snapshot id under the key of another coordinate. -/
def Uncontested (stateHash : WarpState V → JsString) (r : Repository V)
    (index : WarpStateSnapshotIndex V) : SnapshotCall → Prop
  | .publish coordinate base => ∀ state, r.materializeCoordinate coordinate base = .ok state →
      index.Apart (publishedSnapshot (stateHash state) coordinate state)
  | _ => True

/-- No other coordinate of the run has the key of a published one. -/
def KeysApart (calls : List SnapshotCall) : Prop :=
  ∀ published base, SnapshotCall.publish published base ∈ calls →
    ∀ call ∈ calls, ∀ coordinate ∈ call.coordinates,
      coordinateKey published = coordinateKey coordinate → published.equals coordinate = true

/-- A lookup finds nothing, or what was published for this coordinate: the reduction of its
patches. -/
def Answers (stateHash : WarpState V → JsString) (r : Repository V) (calls : List SnapshotCall)
    (coordinate : Coordinate) : Prop :=
  ∀ record, (reach stateHash r calls).findExact coordinate = some record →
    (∃ base, .publish record.coordinate base ∈ calls) ∧ record.coordinate.equals coordinate = true ∧
      ∃ state, record.state = some state ∧ r.ReducesTo coordinate state

/-- The snapshots of the publications of a run. -/
def Put (stateHash : WarpState V → JsString) (r : Repository V) (calls : List SnapshotCall)
    (record : WarpStateSnapshotRecord V) : Prop :=
  ∃ coordinate base state, .publish coordinate base ∈ calls ∧
    r.materializeCoordinate coordinate base = .ok state ∧
    record = publishedSnapshot (stateHash state) coordinate state

variable (stateHash : WarpState V → JsString) (r : Repository V)

theorem perform_publish (materialized : r.materializeCoordinate coordinate base = .ok state) (index) :
    perform stateHash r index (.publish coordinate base) =
      index.upsert (publishedSnapshot (stateHash state) coordinate state) := by
  simp only [perform, materialized, publishSnapshot]

theorem filed_perform (index) (filed : index.Filed (Put stateHash r calls)) (member : call ∈ calls) :
    (perform stateHash r index call).Filed (Put stateHash r calls) := by
  cases call with
  | publish coordinate base =>
    cases materialized : r.materializeCoordinate coordinate base with
    | error e => simpa only [perform, materialized] using filed
    | ok state =>
      rw [perform_publish stateHash r materialized]
      exact filed.upsert _ ⟨coordinate, base, state, member, materialized, rfl⟩
  | findExact coordinate => exact filed
  | pruneEvictable maxEntries => exact filed.pruneEvictable

theorem pointed_perform (index : WarpStateSnapshotIndex V)
    (filed : index.Filed (Put stateHash r calls)) (pointed : index.Pointed)
    (uncontested : Uncontested stateHash r index call) :
    (perform stateHash r index call).Pointed := by
  cases call with
  | publish coordinate base =>
    cases materialized : r.materializeCoordinate coordinate base with
    | error e => simpa only [perform, materialized] using pointed
    | ok state =>
      rw [perform_publish stateHash r materialized]
      exact pointed.upsert _ (uncontested state materialized)
  | findExact coordinate => exact pointed
  | pruneEvictable maxEntries => exact pointed.pruneEvictable filed

theorem keysApart_of_named (calls)
    (named : ∀ call ∈ calls, ∀ coordinate ∈ call.coordinates, coordinate.Named) :
    KeysApart calls := by
  intro published base mem call listed coordinate inside
  exact coordinateKey_inj
    (named _ mem published mem_cons_self) (named call listed coordinate inside)

theorem filed_reach : (reach stateHash r calls).Filed (Put stateHash r calls) := by
  have along := Along.of_forall (perform stateHash r) empty
    (fun call (mem : call ∈ calls) => mem)
  have kept := along.invariant (perform stateHash r)
    (fun index call filed mem => filed_perform stateHash r index filed mem)
    filed_empty calls.length
  rwa [take_length] at kept

theorem pointed_reach (along : Along (perform stateHash r) (Uncontested stateHash r) empty calls) :
    (reach stateHash r calls).Pointed := by
  have members := Along.of_forall (perform stateHash r) empty
    (fun call (mem : call ∈ calls) => mem)
  have kept := (members.and (perform stateHash r) along).invariant (perform stateHash r)
    (I := fun index => index.Filed (Put stateHash r calls) ∧ index.Pointed)
    (fun index call held both => ⟨filed_perform stateHash r index held.1 both.1,
      pointed_perform stateHash r index held.1 held.2 both.2⟩)
    ⟨filed_empty, pointed_empty⟩ calls.length
  rw [take_length] at kept
  exact kept.2

/-! ### Which runs answer exactly -/

omit [StrictEq V] in
theorem reducePatches_ok (entries) (s : WarpState V) (valid : ∀ entry ∈ entries, entry.WellFormed) :
    ∃ t, reducePatches entries s = .ok t := by
  induction entries generalizing s with
  | nil => exact ⟨s, rfl⟩
  | cons entry rest ih =>
    obtain ⟨effect, found⟩ := (valid entry mem_cons_self).effect_ok
    obtain ⟨t, reduced⟩ := ih (effect.apply s) fun e mem =>
      valid e (mem_cons_of_mem _ mem)
    exact ⟨t, (reducePatches_cons found rest s).trans reduced⟩

omit [StrictEq V] in
theorem replay_untracked (r : Repository V) (target) (base) :
    (r.replay target false base).tracked = false := by
  have fromStart : (r.replayFromStart target false).tracked = false := rfl
  unfold Repository.replay
  split
  · rfl
  · -- every base is either taken as it is or passed by
    cases base <;> dsimp only
    case scratch => exact fromStart
    all_goals
      split
      · split
        · rfl
        · exact fromStart
      · exact fromStart

theorem materializeCoordinate_eq (r : Repository V) (target) (base) :
    r.materializeCoordinate target base =
      reducePatches (r.replay target false base).patches (r.replay target false base).base := by
  rw [Repository.materializeCoordinate, Replay.reduce, replay_untracked]
  cases reducePatches (r.replay target false base).patches (r.replay target false base).base <;> rfl

theorem materializeCoordinate_spec {r : Repository V} (sound : r.Sound)
    (resumable : r.Resumable target false base) :
    ∃ state, r.materializeCoordinate target base = .ok state ∧ r.ReducesTo target state := by
  obtain ⟨valid, leads⟩ := sound.leads resumable
  obtain ⟨state, reduced⟩ := reducePatches_ok _ (r.replay target false base).base valid
  refine ⟨state, ?_, (leads state reduced).reducesTo sound.valid⟩
  rw [materializeCoordinate_eq, reduced]

omit [StrictEq V] in
theorem reducesTo_congr {r : Repository V} (sound : r.Sound) (same : c.equals c' = true)
    (reduces : r.ReducesTo c s) : r.ReducesTo c' s := by
  obtain ⟨ceiling, frontier⟩ := Coordinate.equals_spec c c' same
  obtain ⟨reduced, ok, equiv⟩ := reduces
  have knows := represents_history ok
  have reads : r.Reads c s := Represents.of_equiv equiv knows
  have moved : r.Reads c' s := by
    apply reads.congr
    intro e
    simp only [CommitStore.mem_streamForFrontier, ceiling, frontier]
  exact moved.reducesTo sound.valid

theorem answers_of_pointed {r} (sound : r.Sound)
    (resumable : ∀ coordinate base, .publish coordinate base ∈ calls →
      r.Resumable coordinate false base) (pointed : (reach stateHash r calls).Pointed) (coordinate)
    (unmistaken : ∀ published base, .publish published base ∈ calls →
      coordinateKey published = coordinateKey coordinate → published.equals coordinate = true) :
    Answers stateHash r calls coordinate := by
  intro record found
  obtain ⟨id, points, held⟩ := findExact_eq_some found
  -- the key of the coordinate leads to a record of a coordinate with that key
  obtain ⟨record', held', key⟩ := pointed _ id points
  obtain rfl : record' = record := Option.some.inj (held'.symm.trans held)
  obtain ⟨-, published, base, state, member, materialized, rfl⟩ :=
    (filed_reach stateHash r).own id _ held
  have same := unmistaken published base member key
  obtain ⟨state', ok, reduces⟩ := materializeCoordinate_spec sound
    (resumable published base member)
  obtain rfl : state' = state := Except.ok.inj (ok.symm.trans materialized)
  exact ⟨⟨base, member⟩, same, state', rfl, reducesTo_congr sound same reduces⟩

theorem reach_snoc (calls call) :
    reach stateHash r (calls ++ [call]) = perform stateHash r (reach stateHash r calls) call := by
  rw [reach, run_append]
  rfl

end WarpStateSnapshotIndex

end

/-! ### A node that is added twice -/

namespace WarpStateSnapshotIndex

instance [StrictEq V] (stateHash : WarpState V → JsString) (r : Repository V)
    (index : WarpStateSnapshotIndex V) : (call : SnapshotCall) →
    Decidable (Uncontested stateHash r index call)
  | .publish coordinate base =>
    match materialized : r.materializeCoordinate coordinate base with
    | .error _ => isTrue fun state ok => by rw [materialized] at ok; cases ok
    | .ok state => decidable_of_iff
        (index.Apart (publishedSnapshot (stateHash state) coordinate state))
        ⟨fun apart other ok => by
          obtain rfl : state = other := Except.ok.inj (materialized.symm.trans ok)
          exact apart,
        fun every => every state materialized⟩
  | .findExact _ => isTrue trivial
  | .pruneEvictable _ => isTrue trivial

/-- Writer `a` adds node `x`. -/
def addsFirst : PatchEntry Nat where
  patch := ⟨lit "a", 1, [.decoded { OpLike.bare (lit "NodeAdd") 0 with
    node := some (lit "x"), dot := some (.raw ⟨some (lit "a"), some (.int 1)⟩) }], .absent⟩
  sha := lit "aaaa"

/-- Writer `a` adds the same node again. -/
def addsAgain : PatchEntry Nat where
  patch := ⟨lit "a", 2, [.decoded { OpLike.bare (lit "NodeAdd") 0 with
    node := some (lit "x"), dot := some (.raw ⟨some (lit "a"), some (.int 2)⟩) }], .absent⟩
  sha := lit "bbbb"

theorem addsFirst_wellFormed : addsFirst.WellFormed :=
  .of_checks (by decide)

theorem addsAgain_wellFormed : addsAgain.WellFormed :=
  .of_checks (by decide)

def addedTwice : Repository Nat :=
  Repository.blank.appendAll [⟨lit "a", none, addsFirst.patch, addsFirst.sha⟩,
    ⟨lit "a", some addsFirst.sha, addsAgain.patch, addsAgain.sha⟩]

theorem addedTwice_sound : addedTwice.Sound := by
  apply (Repository.sound_blank.appendAll _).1
  simp only [mem_cons, not_mem_nil, or_false, forall_eq_or_imp, forall_eq]
  exact ⟨addsFirst_wellFormed, addsAgain_wellFormed⟩

def tipOfFirst : Coordinate := ⟨.ofList [(lit "a", addsFirst.sha)], none⟩

def tipOfSecond : Coordinate := ⟨.ofList [(lit "a", addsAgain.sha)], none⟩

/-- The first snapshot is pruned before the second one is published. -/
def prunedBetween : List SnapshotCall :=
  [.publish tipOfFirst .scratch, .pruneEvictable 0, .publish tipOfSecond .scratch,
    .findExact tipOfSecond]

end WarpStateSnapshotIndex

end GitWarp
