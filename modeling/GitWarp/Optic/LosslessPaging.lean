import GitWarp.Js.Digits
import GitWarp.Optic.Neighborhood

/-!
# Paging through a neighbourhood

The live positions of a reading stand in one list, and every cursor of a page
stands for a place in it. A page that is read at such a place lists the edges
from there up to the limit; its cursor and the cursors of its edges stand for the
places behind them.
-/
namespace GitWarp

open Js Lib KeyCodec List

variable {V : Type}

open IndexTree (Direction)

/-! ### Texts that can be encoded -/

/-- No half of a surrogate pair stands alone. -/
def isWellFormed : JsString → Bool
  | [] => true
  | u :: rest =>
    if isLowSurrogate u then false
    else if isHighSurrogate u then
      match rest with
      | [] => false
      | v :: after => isLowSurrogate v && isWellFormed after
    else isWellFormed rest

theorem isUriUnreserved_plain (u) (unreserved : isUriUnreserved u = true) :
    isLowSurrogate u = false ∧ isHighSurrogate u = false := by
  have small : u.val ≤ 126 := by
    simp only [isUriUnreserved, Bool.or_eq_true, decide_eq_true_eq, contains_cons,
      contains_nil, beq_iff_eq, Bool.or_false] at unreserved
    omega
  simp only [isLowSurrogate, isHighSurrogate, decide_eq_false_iff_not]
  omega

theorem isSome_encodeURIComponent (text) :
    (encodeURIComponent text).isSome = isWellFormed text := by
  fun_induction encodeURIComponent text with
  | case1 => rfl
  | case2 u rest unreserved ih =>
    obtain ⟨notLow, notHigh⟩ := isUriUnreserved_plain u unreserved
    rw [Option.isSome_map, ih, isWellFormed.eq_def (u :: rest)]
    simp [notLow, notHigh]
  | case3 u rest _ low =>
    rw [isWellFormed.eq_def (u :: rest)]
    simp [low]
  | case4 u _ notLow high => simp [isWellFormed, notLow, high]
  | case5 u _ notLow high v after low ih => simp [isWellFormed, notLow, high, low, ih]
  | case6 u _ notLow high v after notLow' => simp [isWellFormed, notLow, high, notLow']
  | case7 u rest _ notLow notHigh ih =>
    rw [Option.isSome_map, ih, isWellFormed.eq_def (u :: rest)]
    simp [notLow, notHigh]

theorem exists_encodeURIComponent (formed : isWellFormed text = true) :
    ∃ encoded, encodeURIComponent text = some encoded := by
  rw [← isSome_encodeURIComponent] at formed
  exact Option.isSome_iff_exists.mp formed

theorem exists_mapM_encode (texts : List JsString)
    (formed : ∀ text ∈ texts, isWellFormed text = true) :
    ∃ encoded, texts.mapM encodeURIComponent = some encoded := by
  induction texts with
  | nil => exact ⟨[], rfl⟩
  | cons text rest ih =>
    obtain ⟨first, made⟩ := exists_encodeURIComponent (formed text mem_cons_self)
    obtain ⟨others, kept⟩ := ih (forall_mem_cons.mp formed).2
    exact ⟨first :: others, by simp [mapM_cons, made, kept]⟩

/-! ### Reading a cursor back -/

theorem mapM_decode (texts encoded : List JsString)
    (ok : texts.mapM encodeURIComponent = some encoded) :
    encoded.mapM decodeURIComponent = some texts := by
  induction texts generalizing encoded with
  | nil =>
    cases ok
    rfl
  | cons text rest ih =>
    simp only [mapM_cons, Option.bind_eq_bind, Option.bind_eq_some_iff, Option.pure_def,
      Option.some.injEq] at ok
    obtain ⟨first, made, others, kept, rfl⟩ := ok
    simp [mapM_cons, decodeURIComponent_encode first made, ih others kept]

theorem decodeLabels_join {labels encoded : List JsString}
    (ok : labels.mapM encodeURIComponent = some encoded) (named : labels ≠ [[]]) :
    decodeLabels (join comma encoded) = some labels := by
  -- the one list of labels that is lost has the empty label only
  have back := mapM_decode labels encoded ok
  have apart : ∀ part ∈ encoded, comma ∉ part := by
    intro part mem
    obtain ⟨source, -, made⟩ := exists_of_mem_mapM _ ok mem
    exact (absent_encodeURIComponent made).2
  cases encoded with
  | nil =>
    cases back
    rfl
  | cons first rest =>
    have some_ : join comma (first :: rest) ≠ [] := by
      cases rest with
      | nil =>
        rintro (rfl : first = [])
        cases back
        exact named rfl
      | cons next others =>
        intro none_
        have lengths := congrArg List.length none_
        simp [join] at lengths
    rw [decodeLabels, if_neg some_, split_join (cons_ne_nil _ _) apart, back]

theorem parseDirection_directionText (direction) :
    parseDirection (directionText direction) = some direction := by
  cases direction <;> decide

theorem parseGlobalId_numberText_eq (n) (bound : n < 2 ^ 32) :
    parseGlobalId (numberText n) = some n := by
  have text : numberText n = decimalText n := by
    rw [numberText, if_pos (by omega)]
  rw [parseGlobalId, text, parseInt_decimalText]
  dsimp only
  rw [Int.toNat_natCast, text, if_neg]
  rintro (negative | large | other)
  · omega
  · omega
  · exact other rfl

theorem parse_encode (scope : NeighborhoodCursorScope) (after) (bound : after.globalId < 2 ^ 32)
    (named : scope.labels ≠ [[]]) (encoded : encodeNeighborhoodCursor scope after = .ok text) :
    parseNeighborhoodCursor (some text) scope = .ok (some after) := by
  obtain ⟨sha, node, labels, label, shaText, nodeText, labelTexts, labelText, some_, marked,
    pieces⟩ := split_encodeNeighborhoodCursor bound encoded
  obtain ⟨u, rest, shape⟩ := exists_cons_of_ne_nil some_
  have decoded : decodeCursorParts text scope = some after := by
    rw [decodeCursorParts, if_pos marked, pieces]
    simp only [decodeCursorScope, decodeURIComponent_encode _ shaText,
      decodeURIComponent_encode _ nodeText, parseDirection_directionText,
      decodeLabels_join labelTexts named, decodeCursorPosition, Side.parse_text,
      parseGlobalId_numberText_eq _ bound, decodeURIComponent_encode _ labelText,
      Option.bind_eq_bind, Option.bind_some, if_true]
  rw [shape, parseNeighborhoodCursor, ← shape, decoded]

theorem exists_encodeNeighborhoodCursor (scope after)
    (sha : isWellFormed scope.checkpointSha = true) (node : isWellFormed scope.nodeId = true)
    (labels : ∀ label ∈ scope.labels, isWellFormed label = true)
    (label : isWellFormed after.label = true) :
    ∃ text, encodeNeighborhoodCursor scope after = .ok text := by
  obtain ⟨shaText, shaOk⟩ := exists_encodeURIComponent sha
  obtain ⟨nodeText, nodeOk⟩ := exists_encodeURIComponent node
  obtain ⟨labelTexts, labelsOk⟩ := exists_mapM_encode _ labels
  obtain ⟨labelText, labelOk⟩ := exists_encodeURIComponent label
  simp [encodeNeighborhoodCursor, cursorParts, shaOk, nodeOk, labelsOk, labelOk]

/-! ### Places in a list of positions -/

/-- Where a reading resumes that has listed the first `k` positions. -/
def resumeAt (ps : List NeighborhoodCandidatePosition) : Nat → Option NeighborhoodCandidatePosition
  | 0 => none
  | k + 1 => ps[k]?

variable (ps : List NeighborhoodCandidatePosition)

namespace IndexTree

variable {t : IndexTree V}

theorem behind_resumeAt (sorted : ps.Pairwise fun a b => positionKey a < positionKey b) (k)
    (within : k ≤ ps.length) : behind (resumeAt ps k) ps = ps.drop k := by
  induction ps generalizing k with
  | nil => simp [behind]
  | cons p rest ih =>
    obtain ⟨least, tail⟩ := pairwise_cons.mp sorted
    cases k with
    | zero => simp [resumeAt, behind, Behind]
    | succ k =>
      rw [length_cons, Nat.succ_le_succ_iff] at within
      -- the first position is not behind any place but the start
      obtain ⟨q, place, notAfter⟩ : ∃ q, resumeAt (p :: rest) (k + 1) = some q ∧
          ¬ positionKey q < positionKey p := by
        cases k with
        | zero => exact ⟨p, rfl, lt_irrefl _⟩
        | succ k =>
          have inside : k < rest.length := within
          refine ⟨rest[k], by simp [resumeAt, inside], ?_⟩
          exact not_lt.mpr (le_of_lt (least _ (getElem_mem inside)))
      rw [place, behind, filter_cons_of_neg (by simpa [Behind] using notAfter),
        drop_succ_cons, ← ih tail k within]
      cases k with
      | zero =>
        cases place
        -- everything is behind the first position
        rw [resumeAt, behind, filter_eq_self.mpr, filter_eq_self.mpr]
        · simp [Behind]
        · simpa [Behind] using least
      | succ k =>
        rw [behind, ← place]
        rfl

theorem live_behind (t : IndexTree V) (after whole) :
    t.live (behind after whole) = behind after (t.live whole) := by
  rw [live, live, behind, behind, filter_comm]

theorem collectSorted_eq (t : IndexTree V) (ps)
    (alive : ∀ p ∈ ps, (t.resolveLiveNode p.globalId).isSome = true) (page)
    (open_ : page.hasMore = false) (within : page.edges.length ≤ limit) :
    t.collectSorted limit ps page =
      ⟨page.edges ++ (ps.take (limit - page.edges.length)).filterMap t.listed,
        decide (limit < page.edges.length + ps.length),
        (ps.take (limit - page.edges.length)).getLast?.or page.last,
        page.resumeAfter ++
          (page.last :: (ps.take (limit - page.edges.length)).map some).dropLast⟩ := by
  -- a page takes the positions up to its limit, and before each of them it notes where a
  -- reading resumes that has not listed it
  induction ps generalizing page with
  | nil =>
    obtain ⟨edges, hasMore, last, resumeAfter⟩ := page
    subst open_
    simp [collectSorted, within]
  | cons p rest ih =>
    obtain ⟨n, found⟩ := Option.isSome_iff_exists.mp (alive p mem_cons_self)
    have edge : t.listed p = some ⟨p.direction, n, p.label⟩ := by
      rw [listed, found]
      rfl
    rw [collectSorted, found]
    dsimp only
    split
    next full =>
      obtain ⟨edges, hasMore, last, resumeAfter⟩ := page
      simp [full]
    next room =>
      -- one edge more is on the page
      have length : (page.list p n).edges.length = page.edges.length + 1 := by
        simp [NeighborhoodBitmapPageResult.list]
      rw [ih (forall_mem_cons.mp alive).2 (page.list p n) rfl
        (by omega), length]
      obtain ⟨left, more⟩ : ∃ left, limit - page.edges.length = left + 1 :=
        ⟨limit - page.edges.length - 1, by omega⟩
      have fewer : limit - (page.edges.length + 1) = left := by omega
      rw [more, fewer, take_succ_cons, filterMap_cons, edge]
      simp only [NeighborhoodBitmapPageResult.mk.injEq]
      refine ⟨?_, ?_, ?_, ?_⟩
      · simp [NeighborhoodBitmapPageResult.list]
      · simp only [length_cons, decide_eq_decide]
        omega
      · cases shape : rest.take left using List.reverseRecOn with
        | nil => rfl
        | append_singleton init q =>
          rw [← cons_append, List.getLast?_concat, List.getLast?_concat]
          rfl
      · simp [NeighborhoodBitmapPageResult.list]

/-! ### Places of a reading -/

/-- The live positions of a reading, in the order of its pages. -/
def livePositions (t : IndexTree V) (scope : NeighborhoodCursorScope) :
    List NeighborhoodCandidatePosition :=
  match t.readSourceGlobalId scope.nodeId with
  | none => []
  | some g => t.live (t.wholePositions scope.direction scope.nodeId scope.labels g)

theorem neighborhood_none (t : IndexTree V) (scope) :
    t.neighborhood scope none = (t.livePositions scope).filterMap t.listed := by
  rw [neighborhood, livePositions]
  cases t.readSourceGlobalId scope.nodeId with
  | none => rfl
  | some g =>
    dsimp only
    rw [restOf, live_behind]
    congr 1
    apply filter_eq_self.mpr
    simp [Behind]

theorem alive_livePositions (t : IndexTree V) (scope p) (mem : p ∈ t.livePositions scope) :
    (t.resolveLiveNode p.globalId).isSome = true := by
  rw [livePositions] at mem
  split at mem
  next => cases mem
  next => exact (mem_filter.mp mem).2

/-- The edge that a live position lists. -/
def listing (t : IndexTree V) (p : NeighborhoodCandidatePosition) : NeighborhoodOpticEdge :=
  ⟨p.direction, (t.resolveLiveNode p.globalId).getD [], p.label⟩

theorem filterMap_listed (t : IndexTree V) {ps : List NeighborhoodCandidatePosition}
    (alive : ∀ p ∈ ps, (t.resolveLiveNode p.globalId).isSome = true) :
    ps.filterMap t.listed = ps.map t.listing := by
  rw [← filterMap_eq_map]
  apply filterMap_congr
  intro p mem
  obtain ⟨n, found⟩ := Option.isSome_iff_exists.mp (alive p mem)
  simp [listed, listing, found]

structure PageAt (t : IndexTree V) (scope : NeighborhoodCursorScope) (size k : Nat)
    (collected : NeighborhoodBitmapPageResult) : Prop where
  edges : collected.edges = ((t.livePositions scope).map t.listing |>.drop k).take size
  hasMore : collected.hasMore = decide (k + size < (t.livePositions scope).length)
  last : collected.hasMore = true → collected.last = resumeAt (t.livePositions scope) (k + size)
  resumeAfter : collected.resumeAfter =
    (List.range collected.edges.length).map fun i => resumeAt (t.livePositions scope) (k + i)

theorem resumeAt_add (k i) : resumeAt ps (k + (i + 1)) = (ps.drop k)[i]? := by
  rw [← Nat.add_assoc, resumeAt, List.getElem?_drop]

theorem dropLast_places (k size) :
    (resumeAt ps k :: ((ps.drop k).take size).map some).dropLast =
      (List.range ((ps.drop k).take size).length).map fun i => resumeAt ps (k + i) := by
  apply ext_getElem
  · simp
  · intro i here there
    simp only [length_map, length_range] at there
    rw [getElem_dropLast, getElem_map, getElem_range]
    cases i with
    | zero => rfl
    | succ i =>
      rw [getElem_cons_succ, getElem_map, resumeAt_add, getElem_take, List.getElem?_eq_getElem]

theorem pageAt_collected (numbered : t.Numbered) (distinct : scope.labels.Nodup) (room : 0 < size)
    (within : k ≤ (t.livePositions scope).length) (g)
    (found : t.readSourceGlobalId scope.nodeId = some g) :
    ∃ collected, t.collectNeighborhoodBitmapPage size (resumeAt (t.livePositions scope) k)
        scope.direction scope.nodeId scope.labels g = .ok collected ∧
      t.PageAt scope size k collected := by
  have once := fun side => labelsOnce numbered side scope.nodeId distinct
  have alive := t.alive_livePositions scope
  have shape : t.livePositions scope =
      t.live (t.wholePositions scope.direction scope.nodeId scope.labels g) := by
    rw [livePositions, found]
  have sorted : (t.livePositions scope).Pairwise fun a b => positionKey a < positionKey b := by
    rw [shape]
    exact (t.ascending_wholePositions scope.direction g once).filter _
  -- what is collected are the positions from the place on
  rw [t.collectNeighborhoodBitmapPage_eq size _ once,
    collectSorted_live, live_behind, ← shape, behind_resumeAt _ sorted k within,
    t.collectSorted_eq _ (fun p mem => alive p (mem_of_mem_drop mem)) _ rfl
      (Nat.zero_le _)]
  refine ⟨_, rfl, ?_⟩
  have listed_ : (((t.livePositions scope).drop k).take size).filterMap t.listed =
      (((t.livePositions scope).map t.listing).drop k).take size := by
    rw [t.filterMap_listed fun p mem =>
      alive p (mem_of_mem_drop (mem_of_mem_take mem)), map_take, map_drop]
  constructor
  · simpa using listed_
  · simp only [length_nil, Nat.zero_add, length_drop, decide_eq_decide]
    omega
  · intro more
    simp only [length_nil, Nat.zero_add, length_drop, decide_eq_true_eq] at more
    obtain ⟨n, rfl⟩ : ∃ n, size = n + 1 := ⟨size - 1, by omega⟩
    -- the page is full, and its last edge is the one before the next place
    have inside : n < ((t.livePositions scope).drop k).length := by
      rw [length_drop]
      omega
    rw [resumeAt_add, length_nil, Nat.sub_zero, List.getElem?_eq_getElem inside,
      take_succ_eq_append_getElem inside, List.getLast?_concat]
    rfl
  · simp only [nil_append, length_nil, Nat.sub_zero]
    rw [dropLast_places, t.filterMap_listed fun p mem =>
      alive p (mem_of_mem_drop (mem_of_mem_take mem)), length_map]

theorem size_pos (sized : parseNeighborhoodLimit limit = .ok size) : 0 < size := by
  rw [parseNeighborhoodLimit] at sized
  split at sized
  next => cases sized
  next fine =>
    cases sized
    omega

theorem readPage_at (numbered : t.Numbered) (distinct : scope.labels.Nodup)
    (sized : parseNeighborhoodLimit limit = .ok size)
    (parsed : parseNeighborhoodCursor cursor scope = .ok (resumeAt (t.livePositions scope) k))
    (within : k ≤ (t.livePositions scope).length) :
    ∃ collected, t.readCheckpointNeighborhoodPage scope cursor limit =
        completedPage scope collected ∧ t.PageAt scope size k collected := by
  -- a page is read at the place that its cursor stands for
  have room := size_pos sized
  have bare : t.livePositions scope = [] →
      t.PageAt scope size k ⟨[], false, none, []⟩ := by
    intro none_
    constructor <;> simp [none_]
  rw [readCheckpointNeighborhoodPage, sized, parsed]
  simp only [bind, Except.bind]
  cases found : t.readSourceGlobalId scope.nodeId with
  | none => exact ⟨⟨[], false, none, []⟩, rfl, bare (by rw [livePositions, found])⟩
  | some g =>
    dsimp only
    split
    next missing =>
      rw [Bool.not_eq_true'] at missing
      refine ⟨⟨[], false, none, []⟩, rfl, bare ?_⟩
      rw [livePositions, found]
      dsimp only
      rw [wholePositions_of_no_adjacency scope.labels g missing]
      rfl
    next =>
      obtain ⟨collected, ok, at_⟩ := pageAt_collected numbered distinct room within g
        found
      exact ⟨collected, by rw [ok], at_⟩

/-! ### Cursors of a page -/

/-- The cursor is the text of the place, and is read back as it. -/
def Stands (scope : NeighborhoodCursorScope) :
    Option JsString → Option NeighborhoodCandidatePosition → Prop
  | none, place => place = none
  | some text, place => ∃ p, place = some p ∧ encodeNeighborhoodCursor scope p = .ok text ∧
      parseNeighborhoodCursor (some text) scope = .ok (some p)

theorem Stands.parsed (stands : Stands scope cursor place) :
    parseNeighborhoodCursor cursor scope = .ok place := by
  cases cursor with
  | none => rw [show place = none from stands, parseNeighborhoodCursor]
  | some text =>
    obtain ⟨p, rfl, -, back⟩ := stands
    exact back

/-- Every live position of a reading has a cursor. -/
def Spelled (t : IndexTree V) (scope : NeighborhoodCursorScope) : Prop :=
  ∀ p ∈ t.livePositions scope, ∃ text, Stands scope (some text) (some p)

theorem Spelled.cursor (spelled : t.Spelled scope)
    (place : resumeAt (t.livePositions scope) k = some p) :
    ∃ text, encodeNeighborhoodCursor scope p = .ok text ∧ Stands scope (some text) (some p) := by
  cases k with
  | zero => cases place
  | succ k =>
    obtain ⟨text, stands⟩ := spelled p (mem_of_getElem? place)
    obtain ⟨q, same, encoded, -⟩ := id stands
    cases same
    exact ⟨text, encoded, stands⟩

theorem encodeResumeCursors_spec (spelled : t.Spelled scope) : ∃ cursors,
      encodeResumeCursors scope (places.map (resumeAt (t.livePositions scope))) = .ok cursors ∧
        List.Forall₂ (fun cursor k => Stands scope cursor (resumeAt (t.livePositions scope) k))
          cursors places := by
  induction places with
  | nil => exact ⟨[], rfl, .nil⟩
  | cons k rest ih =>
    obtain ⟨cursors, ok, stand⟩ := ih
    rw [map_cons]
    cases place : resumeAt (t.livePositions scope) k with
    | none =>
      refine ⟨none :: cursors, ?_, .cons place stand⟩
      simp [encodeResumeCursors, ok, bind, Except.bind, pure, Except.pure]
    | some p =>
      obtain ⟨text, encoded, stands⟩ := spelled.cursor place
      refine ⟨some text :: cursors, ?_, .cons (by rw [place]; exact stands) stand⟩
      simp [encodeResumeCursors, encoded, ok, bind, Except.bind, pure, Except.pure]

/-- What the reader answers at a place. -/
structure AnswerAt (t : IndexTree V) (scope : NeighborhoodCursorScope) (size k : Nat)
    (page : NeighborhoodPage) : Prop where
  edges : page.edges = ((t.livePositions scope).map t.listing |>.drop k).take size
  ends : (t.livePositions scope).length ≤ k + size → page.cursor = none
  goes : k + size < (t.livePositions scope).length → ∃ next, page.cursor = some next ∧
    Stands scope (some next) (resumeAt (t.livePositions scope) (k + size))
  resumes : List.Forall₂ (fun cursor i => Stands scope cursor
    (resumeAt (t.livePositions scope) (k + i))) page.resumeCursors (List.range page.edges.length)

theorem exists_resumeAt (k) (positive : 0 < k) (within : k ≤ ps.length) :
    ∃ p, resumeAt ps k = some p := by
  obtain ⟨n, rfl⟩ : ∃ n, k = n + 1 := ⟨k - 1, by omega⟩
  have inside : n < ps.length := within
  exact ⟨ps[n], List.getElem?_eq_getElem inside⟩

theorem completedPage_at (spelled : t.Spelled scope) (room : 0 < size)
    (at_ : t.PageAt scope size k collected) :
    ∃ page, completedPage scope collected = .ok page ∧ t.AnswerAt scope size k page := by
  obtain ⟨cursors, encoded, stand⟩ := encodeResumeCursors_spec spelled
  have notes : collected.resumeAfter = ((List.range collected.edges.length).map (k + ·)).map
      (resumeAt (t.livePositions scope)) := by
    rw [at_.resumeAfter, map_map]
    rfl
  rw [← notes] at encoded
  have resumes := forall₂_map_right_iff.mp stand
  by_cases more : k + size < (t.livePositions scope).length
  · -- the cursor of the page is the place behind its last edge
    have flagged : collected.hasMore = true := by rw [at_.hasMore, decide_eq_true more]
    obtain ⟨p, place⟩ := exists_resumeAt (t.livePositions scope) (k + size) (by omega) (by omega)
    obtain ⟨text, made, stands⟩ := spelled.cursor place
    refine ⟨⟨collected.edges, some text, cursors⟩, ?_, at_.edges, fun all_ => by omega,
      fun _ => ⟨text, rfl, by rw [place]; exact stands⟩, resumes⟩
    simp [completedPage, pageCursor, flagged, at_.last flagged, place, made, encoded, bind,
      Except.bind, pure, Except.pure, Except.map]
  · have flagged : collected.hasMore = false := by rw [at_.hasMore, decide_eq_false more]
    refine ⟨⟨collected.edges, none, cursors⟩, ?_, at_.edges, fun _ => rfl,
      fun more' => absurd more' more, resumes⟩
    simp [completedPage, pageCursor, flagged, encoded, bind, Except.bind, pure, Except.pure]

/-! ### Following the cursors -/

/-- The edges of the pages from a cursor on, up to the page without a cursor. -/
inductive Follows (t : IndexTree V) (scope : NeighborhoodCursorScope) (limit : Option Int) :
    Option JsString → List NeighborhoodOpticEdge → Prop
  | last (cursor : Option JsString) (page : NeighborhoodPage)
      (read : t.readCheckpointNeighborhoodPage scope cursor limit = .ok page)
      (ended : page.cursor = none) : Follows t scope limit cursor page.edges
  | more (cursor : Option JsString) (page : NeighborhoodPage) (next : JsString)
      (rest : List NeighborhoodOpticEdge)
      (read : t.readCheckpointNeighborhoodPage scope cursor limit = .ok page)
      (resumes : page.cursor = some next) (later : Follows t scope limit (some next) rest) :
      Follows t scope limit cursor (page.edges ++ rest)

/-- The cursors that a reader can have: the start, and those of the pages it has read. -/
inductive Returned (t : IndexTree V) (scope : NeighborhoodCursorScope) (limit : Option Int) :
    Option JsString → Prop
  | start : Returned t scope limit none
  | next (cursor : Option JsString) (page : NeighborhoodPage)
      (returned : Returned t scope limit cursor)
      (read : t.readCheckpointNeighborhoodPage scope cursor limit = .ok page) :
      Returned t scope limit page.cursor
  | resume (cursor : Option JsString) (page : NeighborhoodPage) (again : Option JsString)
      (returned : Returned t scope limit cursor)
      (read : t.readCheckpointNeighborhoodPage scope cursor limit = .ok page)
      (offered : again ∈ page.resumeCursors) : Returned t scope limit again

theorem Follows.unique (follows : t.Follows scope limit cursor edges)
    (other : t.Follows scope limit cursor edges') : edges = edges' := by
  induction follows generalizing edges' with
  | last cursor page read ended =>
    cases other with
    | last _ page' read' _ =>
      rw [read] at read'
      cases read'
      rfl
    | more _ page' next rest read' resumes _ =>
      rw [read] at read'
      cases read'
      rw [ended] at resumes
      cases resumes
  | more cursor page next rest read resumes later ih =>
    cases other with
    | last _ page' read' ended =>
      rw [read] at read'
      cases read'
      rw [ended] at resumes
      cases resumes
    | more _ page' next' rest' read' resumes' later' =>
      rw [read] at read'
      cases read'
      rw [resumes] at resumes'
      cases resumes'
      rw [ih later']

section

variable (numbered : t.Numbered) {scope : NeighborhoodCursorScope} (distinct : scope.labels.Nodup)
  (spelled : t.Spelled scope) {limit : Option Int} {size : Nat}
  (sized : parseNeighborhoodLimit limit = .ok size)

include numbered distinct spelled sized

theorem answer_at (within : k ≤ (t.livePositions scope).length)
    (stands : Stands scope cursor (resumeAt (t.livePositions scope) k)) :
    ∃ page, t.readCheckpointNeighborhoodPage scope cursor limit = .ok page ∧
      t.AnswerAt scope size k page := by
  obtain ⟨collected, read, at_⟩ := readPage_at numbered distinct sized
    stands.parsed within
  obtain ⟨page, completed, answer⟩ := completedPage_at spelled (size_pos sized) at_
  exact ⟨page, by rw [read, completed], answer⟩

theorem follows_at (k) (within : k ≤ (t.livePositions scope).length) (cursor)
    (stands : Stands scope cursor (resumeAt (t.livePositions scope) k)) :
    t.Follows scope limit cursor ((t.livePositions scope).map t.listing |>.drop k) := by
  -- what is left gets shorter with each page
  induction left : (t.livePositions scope).length - k using Nat.strongRecOn generalizing k cursor with
  | ind n ih =>
    obtain ⟨page, read, answer⟩ := answer_at numbered distinct spelled sized within stands
    have positive := size_pos sized
    by_cases more : k + size < (t.livePositions scope).length
    · obtain ⟨next, resumes, place⟩ := answer.goes more
      have later := ih _ (by omega) (k + size) (by omega) (some next) place rfl
      have whole := Follows.more cursor page next _ read resumes later
      rw [answer.edges, ← drop_drop, take_append_drop] at whole
      exact whole
    · have whole : t.Follows scope limit cursor page.edges :=
        .last cursor page read (answer.ends (by omega))
      rw [answer.edges, take_of_length_le (by simp; omega)] at whole
      exact whole

theorem returned_at (returned : t.Returned scope limit cursor) :
    ∃ k ≤ (t.livePositions scope).length,
      Stands scope cursor (resumeAt (t.livePositions scope) k) := by
  induction returned with
  | start => exact ⟨0, Nat.zero_le _, rfl⟩
  | next cursor page _ read ih =>
    obtain ⟨k, within, stands⟩ := ih
    obtain ⟨page', read', answer⟩ := answer_at numbered distinct spelled sized within stands
    rw [read] at read'
    cases read'
    by_cases more : k + size < (t.livePositions scope).length
    · obtain ⟨next, resumes, place⟩ := answer.goes more
      exact ⟨k + size, le_of_lt more, by rw [resumes]; exact place⟩
    · exact ⟨0, Nat.zero_le _, by rw [answer.ends (by omega)]; rfl⟩
  | resume cursor page again _ read offered ih =>
    obtain ⟨k, within, stands⟩ := ih
    obtain ⟨page', read', answer⟩ := answer_at numbered distinct spelled sized within stands
    rw [read] at read'
    cases read'
    obtain ⟨i, inside, rfl⟩ := getElem_of_mem offered
    have count := answer.resumes.length_eq
    rw [length_range] at count
    have place := answer.resumes.get inside (by rw [length_range]; omega)
    rw [get_eq_getElem, get_eq_getElem, getElem_range] at place
    refine ⟨k + i, ?_, place⟩
    have listed_ := congrArg List.length answer.edges
    rw [length_take, length_drop, length_map] at listed_
    omega

end

/-! ### The index of a state -/

/-- How edges are ordered: by the direction, the number of the neighbour and the label. -/
def edgeRank (t : IndexTree V) (edge : NeighborhoodOpticEdge) : Nat ×ₗ Nat ×ₗ JsString :=
  toLex (directionOrder edge.direction,
    toLex ((t.nodeToGlobal.get edge.neighborId).getD 0, edge.label))

theorem edgeRank_listing (numbered : t.Numbered)
    (alive : (t.resolveLiveNode p.globalId).isSome = true) :
    t.edgeRank (t.listing p) = positionKey p := by
  obtain ⟨n, found⟩ := Option.isSome_iff_exists.mp alive
  have number := (numbered.resolveLiveNode_eq.mp found).2
  simp [edgeRank, listing, found, number, positionKey]

theorem pairwise_listing (numbered : t.Numbered) (distinct : scope.labels.Nodup) :
    ((t.livePositions scope).map t.listing).Pairwise fun a b => t.edgeRank a < t.edgeRank b := by
  have alive := t.alive_livePositions scope
  rw [pairwise_map]
  have sorted : (t.livePositions scope).Pairwise fun a b => positionKey a < positionKey b := by
    rw [livePositions]
    split
    next => exact List.Pairwise.nil
    next g _ =>
      exact (t.ascending_wholePositions scope.direction g
        fun side => labelsOnce numbered side scope.nodeId distinct).filter _
  apply sorted.imp_of_mem
  intro p q here there below
  rw [edgeRank_listing numbered (alive p here), edgeRank_listing numbered (alive q there)]
  exact below

theorem position_spec (numbered : t.Numbered) (holds : t.Holds E) (scope p)
    (mem : p ∈ t.livePositions scope) :
    t.listing p ∈ t.neighborhood scope none ∧ p.globalId < 2 ^ 32 := by
  constructor
  · rw [neighborhood_none, filterMap_listed t (t.alive_livePositions scope)]
    exact mem_map_of_mem mem
  · rw [livePositions] at mem
    split at mem
    next => cases mem
    next g found =>
      obtain ⟨held, -⟩ := numbered.readSourceGlobalId_eq.mp found
      exact globalId_lt numbered holds held (mem_filter.mp mem).1

open CheckpointTailOpticSource in
/-- Where the texts are well formed, every live position of a reading has a cursor. -/
theorem spelled_of_wellFormed (reflects : t.Reflects s) (keyed : s.Keyed) (direction) {labels}
    (sha : isWellFormed checkpointSha = true) (node : isWellFormed x = true)
    (asked : ∀ label ∈ labels, isWellFormed label = true)
    (named : ∀ edge, partsOf x edge ∈ visibleEdges s → isWellFormed edge.label = true) :
    t.Spelled ⟨checkpointSha, x, direction, normalizeLabels labels⟩ := by
  intro p mem
  obtain ⟨inside, small⟩ := position_spec reflects.edges.toNumbered reflects.edges _ p mem
  obtain ⟨-, lists⟩ := neighborhood_spec reflects keyed checkpointSha x direction labels
  obtain ⟨⟨-, wanted⟩, visible⟩ := (lists _).mp inside
  obtain ⟨text, encoded⟩ := exists_encodeNeighborhoodCursor
    ⟨checkpointSha, x, direction, normalizeLabels labels⟩ p sha node
    (fun label listed_ => asked label (mem_normalizeLabels.mp listed_))
    (named _ visible)
  -- no edge has the empty label
  have some_ : normalizeLabels labels ≠ [[]] := by
    intro lost
    have only : ∀ label, label ∈ labels ↔ label = [] := by
      intro label
      rw [← mem_normalizeLabels, lost, mem_singleton]
    have label := ((mem_visibleEdges keyed _).mp visible).1.2.2
    rcases wanted with none_ | member'
    · have empty_ := (only []).mpr rfl
      rw [none_] at empty_
      cases empty_
    · have bare := (only _).mp member'
      have same : (partsOf x (t.listing p)).label = (t.listing p).label := by
        rw [partsOf]
        split <;> rfl
      rw [same, bare] at label
      exact label.nonempty rfl
  exact ⟨text, p, rfl, encoded, parse_encode _ p small some_ encoded⟩

open CheckpointTailOpticSource in
/-- Following the cursors lists the requested visible edges in the order of their neighbours'
numbers, each of them once, and ends; the cursor of an edge continues at the edge; every cursor is
read back as the position it was made of. -/
theorem neighborhood_paging_lossless (s : WarpState V) (keyed : s.Keyed) (t : IndexTree V)
    (built : IndexTree.build s = .ok t) (checkpointSha x : JsString) (direction : Direction)
    (labels : List JsString) (limit : Option Int) (size : Nat)
    (sized : parseNeighborhoodLimit limit = .ok size) (sha : isWellFormed checkpointSha = true)
    (node : isWellFormed x = true) (asked : ∀ label ∈ labels, isWellFormed label = true)
    (named : ∀ edge, partsOf x edge ∈ visibleEdges s → isWellFormed edge.label = true) :
    ∃ whole : List NeighborhoodOpticEdge,
      (∀ edges, t.Follows ⟨checkpointSha, x, direction, normalizeLabels labels⟩ limit none edges ↔
        edges = whole) ∧
      whole.Nodup ∧
      (∀ edge, edge ∈ whole ↔ Requested direction labels edge ∧ partsOf x edge ∈ visibleEdges s) ∧
      whole.Pairwise (fun a b => t.edgeRank a < t.edgeRank b) ∧
      ∀ cursor, t.Returned ⟨checkpointSha, x, direction, normalizeLabels labels⟩ limit cursor →
        (∀ text ∈ cursor, ∃ p, encodeNeighborhoodCursor
            ⟨checkpointSha, x, direction, normalizeLabels labels⟩ p = .ok text ∧
          parseNeighborhoodCursor (some text)
            ⟨checkpointSha, x, direction, normalizeLabels labels⟩ = .ok (some p)) ∧
        ∃ rest page, rest <:+ whole ∧
          t.Follows ⟨checkpointSha, x, direction, normalizeLabels labels⟩ limit cursor rest ∧
          t.readCheckpointNeighborhoodPage ⟨checkpointSha, x, direction, normalizeLabels labels⟩
            cursor limit = .ok page ∧
          page.edges = rest.take size ∧
          List.Forall₂ (fun again i => t.Follows
              ⟨checkpointSha, x, direction, normalizeLabels labels⟩ limit again (rest.drop i))
            page.resumeCursors (List.range page.edges.length) := by
  have reflects := build_reflects keyed t built
  have numbered := reflects.edges.toNumbered
  have spelled := spelled_of_wellFormed reflects keyed direction sha node
    asked named
  obtain ⟨nodup, lists⟩ := neighborhood_spec reflects keyed checkpointSha x direction labels
  have distinct := normalizeLabels_nodup labels
  generalize reading : (⟨checkpointSha, x, direction, normalizeLabels labels⟩ :
    NeighborhoodCursorScope) = scope at *
  have once : scope.labels.Nodup := by rw [← reading]; exact distinct
  rw [neighborhood_none, filterMap_listed t (t.alive_livePositions scope)] at nodup lists
  have from_ := follows_at numbered once spelled sized
  refine ⟨(t.livePositions scope).map t.listing, fun edges => ?_, nodup, lists,
    pairwise_listing numbered once, fun cursor returned => ?_⟩
  · have whole := from_ 0 (Nat.zero_le _) none rfl
    exact ⟨fun follows => follows.unique whole, fun same => same ▸ whole⟩
  · obtain ⟨k, within, stands⟩ := returned_at numbered once spelled sized returned
    obtain ⟨page, read, answer⟩ := answer_at numbered once spelled sized within stands
    refine ⟨?_, _, page, drop_suffix k _, from_ k within cursor stands, read, answer.edges, ?_⟩
    · rintro text rfl
      obtain ⟨p, -, encoded, back⟩ := stands
      exact ⟨p, encoded, back⟩
    · -- the cursors of the edges stand for the places in front of them
      have count := congrArg List.length answer.edges
      rw [length_take, length_drop, length_map] at count
      have apart := answer.resumes.length_eq
      refine forall₂_iff_get.mpr ⟨apart, fun i here there => ?_⟩
      have place := answer.resumes.get here there
      rw [length_range] at there
      rw [get_eq_getElem, get_eq_getElem, getElem_range] at place ⊢
      rw [drop_drop]
      exact from_ (k + i) (by omega) _ place

/-! ### Two neighbours -/

open CheckpointTailOpticSource

/-- A patch that adds an edge to `b` and then another one to `c`. -/
def forked (second : CanonicalOp Nat) : PatchEntry Nat :=
  ⟨⟨lit "b", 1, [.runtime ⟨.nodeAdd (lit "n") (dotOfB 1 Nat.one_pos), addN_check⟩,
    .runtime ⟨.nodeAdd (lit "b") (dotOfB 2 Nat.two_pos), by decide⟩,
    .runtime ⟨.nodeAdd (lit "c") (dotOfB 3 counter_three), by decide⟩,
    .runtime ⟨.edgeAdd (lit "n") (lit "b") (lit "l") (dotOfB 4 (by decide)), by decide⟩,
    .runtime second], .absent⟩, lit "bbbb"⟩

def forkedState (second : CanonicalOp Nat) : WarpState Nat :=
  (reducePatches [forked second] .empty).toOption.getD .empty

def forkedTree (second : CanonicalOp Nat) : IndexTree Nat :=
  (IndexTree.build (forkedState second)).toOption.getD .empty

def edgeToC : CanonicalOp Nat :=
  ⟨.edgeAdd (lit "n") (lit "c") (lit "l") (dotOfB 5 (by decide)), by decide⟩

def halfEdgeToC : CanonicalOp Nat :=
  ⟨.edgeAdd (lit "n") (lit "c") [0xD800] (dotOfB 5 (by decide)), by decide⟩

theorem forked_built (second)
    (reduced : (reducePatches [forked second] .empty).toOption.isSome = true)
    (built : (IndexTree.build (forkedState second)).toOption.isSome = true) :
    (forkedState second).Keyed ∧ IndexTree.build (forkedState second) = .ok (forkedTree second) :=
  ⟨keyed_of_reduced _ (ok_of_toOption _ reduced), ok_of_toOption _ built⟩

/-- The pages follow the numbers of the neighbours, not their ids, and where a label is no
well-formed text a page cannot be read at all. -/
theorem paging_by_number_and_malformed_label :
    (∃ (s : WarpState Nat) (t : IndexTree Nat) (page : NeighborhoodPage), s.Keyed ∧
      IndexTree.build s = .ok t ∧
      t.readCheckpointNeighborhoodPage ⟨lit "cccc", lit "n", .out, []⟩ none none = .ok page ∧
      page.edges = [⟨.out, lit "c", lit "l"⟩, ⟨.out, lit "b", lit "l"⟩] ∧ page.cursor = none ∧
      lit "b" < lit "c") ∧
    ∃ (s : WarpState Nat) (t : IndexTree Nat), s.Keyed ∧ IndexTree.build s = .ok t ∧
      t.readCheckpointNeighborhoodPage ⟨lit "cccc", lit "n", .out, []⟩ none none =
        .error uriMalformed := by
  obtain ⟨keyed, built⟩ := forked_built edgeToC (by decide +kernel) (by decide +kernel)
  obtain ⟨keyed', built'⟩ := forked_built halfEdgeToC (by decide +kernel) (by decide +kernel)
  have read : (forkedTree edgeToC).readCheckpointNeighborhoodPage ⟨lit "cccc", lit "n", .out, []⟩
      none none = .ok ⟨[⟨.out, lit "c", lit "l"⟩, ⟨.out, lit "b", lit "l"⟩], none,
        [none, some (lit "git-warp:neighborhood-cursor:1:cccc|n|out||out|1375731712|l")]⟩ := by
    decide +kernel
  exact ⟨⟨_, _, _, keyed, built, read, rfl, rfl, by decide⟩, _, _, keyed', built',
    by decide +kernel⟩

theorem neighborhood_paging_lossless_forked :
    ∃ (t : IndexTree Nat) (whole : List NeighborhoodOpticEdge),
      t.Follows ⟨lit "cccc", lit "n", .out, normalizeLabels []⟩ (some 1) none whole ∧ whole.Nodup ∧ (⟨.out, lit "c", lit "l"⟩ : NeighborhoodOpticEdge) ∈ whole := by
  obtain ⟨keyed, built⟩ := forked_built edgeToC (by decide +kernel) (by decide +kernel)
  have labels : ∀ e ∈ visibleEdges (forkedState edgeToC), isWellFormed e.label = true := by
    decide +kernel
  obtain ⟨whole, follows, nodup, lists, -⟩ := neighborhood_paging_lossless _ keyed _ built
    (lit "cccc") (lit "n") .out [] (some 1) 1 rfl (by decide) (by decide) (by simp) (by
      intro edge visible
      have formed := labels _ visible
      rw [partsOf] at formed
      split at formed <;> exact formed)
  refine ⟨_, whole, (follows whole).mpr rfl, nodup, (lists _).mpr ⟨?_, ?_⟩⟩
  · simp [Requested, requestedDirections]
  · have seen : (⟨lit "n", lit "c", lit "l"⟩ : EdgeParts) ∈ visibleEdges (forkedState edgeToC) := by
      decide +kernel
    exact seen

end IndexTree
end GitWarp
