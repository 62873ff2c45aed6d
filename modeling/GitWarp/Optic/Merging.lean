import GitWarp.Optic.NeighborhoodPager

/-!
# Merging bitmaps

The loop over the heap passes through the positions that the bitmaps have to
give in ascending order, each of them once. What it lists on a page is then a
stretch of the live positions, and the pages of a reading follow one another
without a gap.
-/
namespace GitWarp

open Js Lib List

variable {V : Type}

/-! ### Heaps of candidates -/

/-- The members of its bitmap that a candidate still has to give. -/
def NeighborhoodBitmapCandidate.values (c : NeighborhoodBitmapCandidate) : List Nat :=
  (bitmapValues c.bitmap).drop c.index

/-- The candidate stands at the first member it has to give. -/
structure NeighborhoodBitmapCandidate.Placed (c : NeighborhoodBitmapCandidate) (side : Side) :
    Prop where
  direction : c.direction = side
  first : ∃ rest, c.values = c.globalId :: rest

structure HeapOk (side : Side) (heap : CandidateHeap) : Prop where
  ordered : Ordered (keyAt candidateKey heap)
  placed : ∀ c ∈ heap.toList, c.Placed side
  labels : (heap.toList.map fun c => c.label).Nodup

/-- The candidate will come to the position. -/
def NeighborhoodBitmapCandidate.Gives (c : NeighborhoodBitmapCandidate)
    (p : NeighborhoodCandidatePosition) : Prop :=
  c.direction = p.direction ∧ c.label = p.label ∧ p.globalId ∈ c.values

def Remains (heap : CandidateHeap) (p : NeighborhoodCandidatePosition) : Prop :=
  ∃ c ∈ heap.toList, c.Gives p

theorem heapOk_empty : HeapOk side #[] where
  ordered := by
    intro i _
    exact le_top
  placed := by simp
  labels := by simp

variable {side : Side} {c : NeighborhoodBitmapCandidate} {heap : CandidateHeap}

theorem HeapOk.push (fine : HeapOk side heap) (c) (placed : c.Placed side)
    (fresh : ∀ d ∈ heap.toList, d.label ≠ c.label) :
    HeapOk side (heapPush candidateKey heap c) ∧
      (∀ p, Remains (heapPush candidateKey heap c) p ↔ c.Gives p ∨ Remains heap p) ∧
      candidatesLeft (heapPush candidateKey heap c) =
        (c.bitmap.size - c.index) + candidatesLeft heap := by
  have perm := perm_heapPush candidateKey heap c
  refine ⟨⟨heapPush_ordered candidateKey heap fine.ordered, ?_, ?_⟩, ?_, ?_⟩
  · intro d member
    rcases mem_cons.mp (perm.mem_iff.mp member) with rfl | old
    · exact placed
    · exact fine.placed d old
  · rw [(perm.map _).nodup_iff, map_cons, nodup_cons]
    refine ⟨fun listed => ?_, fine.labels⟩
    obtain ⟨d, member, same⟩ := mem_map.mp listed
    exact fresh d member same
  · intro p
    simp only [Remains, perm.mem_iff, mem_cons, exists_eq_or_imp]
  · rw [candidatesLeft, (perm.map _).sum_nat, map_cons, sum_cons]
    rfl

theorem candidateAt_spec (within : index < bitmap.size) :
    ∃ globalId, candidateAt bitmap index direction label =
        .ok ⟨⟨direction, globalId, label⟩, bitmap, index⟩ ∧
      (bitmapValues bitmap).drop index = globalId :: (bitmapValues bitmap).drop (index + 1) := by
  have inside : index < (bitmapValues bitmap).length := by
    rw [length_bitmapValues]
    exact within
  refine ⟨(bitmapValues bitmap)[index], ?_, drop_eq_getElem_cons inside⟩
  have found : (sortBy id bitmap.toList)[index]? = some (bitmapValues bitmap)[index] :=
    List.getElem?_eq_getElem inside
  simp only [candidateAt, bitmapValueAt, found]
  rfl

/-! ### Filling the heap -/

/-- The label has this position in the bitmap of the node, behind where the reading resumes. -/
def Offers (buckets : EdgeBitmaps) (after : Option NeighborhoodCandidatePosition) (direction : Side)
    (sourceGlobalId : Nat) (selected : JsString × Nat) (p : NeighborhoodCandidatePosition) : Prop :=
  p.direction = direction ∧ p.label = selected.1 ∧
    p.globalId ∈ buckets.members (.label selected.2, sourceGlobalId) ∧ Behind after p

theorem addLabelBitmap_spec {after} (fine : HeapOk direction heap)
    (fresh : ∀ d ∈ heap.toList, d.label ≠ selected.1) :
    ∃ next, addLabelBitmap buckets after direction sourceGlobalId heap selected = .ok next ∧
      HeapOk direction next ∧ (∀ d ∈ next.toList, d ∈ heap.toList ∨ d.label = selected.1) ∧
      ∀ p, Remains next p ↔ Remains heap p ∨
        Offers buckets after direction sourceGlobalId selected p := by
  obtain ⟨label, labelId⟩ := selected
  -- a bitmap that is missing or at its end offers nothing
  have offered : ∀ p, Offers buckets after direction sourceGlobalId (label, labelId) p ↔
      p.direction = direction ∧ p.label = label ∧ ∃ bitmap ∈ buckets.get (.label labelId,
        sourceGlobalId), p.globalId ∈ (bitmapValues bitmap).drop
          (firstCandidateIndex bitmap after direction label) := by
    rintro ⟨side, globalId, text⟩
    simp only [Offers, OrdMap.members]
    apply and_congr_right
    rintro rfl
    apply and_congr_right
    rintro rfl
    cases buckets.get (.label labelId, sourceGlobalId) with
    | none => simp
    | some bitmap => simp [mem_drop_firstCandidateIndex]
  simp only [offered]
  rw [addLabelBitmap]
  cases stored : buckets.get (.label labelId, sourceGlobalId) with
  | none => exact ⟨heap, rfl, fine, fun d mem => Or.inl mem, by simp⟩
  | some bitmap =>
    dsimp only
    split
    next within =>
      obtain ⟨globalId, made, values⟩ := candidateAt_spec within
      rw [made]
      have placed : (⟨⟨direction, globalId, label⟩, bitmap,
          firstCandidateIndex bitmap after direction label⟩ :
            NeighborhoodBitmapCandidate).Placed direction := ⟨rfl, _, values⟩
      obtain ⟨pushed, remains, -⟩ := fine.push _ placed fresh
      refine ⟨_, rfl, pushed, ?_, ?_⟩
      · intro d mem
        rcases mem_cons.mp ((perm_heapPush candidateKey heap _).mem_iff.mp mem) with rfl | old
        · exact Or.inr rfl
        · exact Or.inl old
      · intro p
        rw [remains, or_comm]
        simp only [NeighborhoodBitmapCandidate.Gives, NeighborhoodBitmapCandidate.values,
          Option.mem_some_iff, exists_eq_left', eq_comm]
    next ended =>
      have none_ : (bitmapValues bitmap).drop (firstCandidateIndex bitmap after direction label) =
          [] := by
        apply drop_eq_nil_of_le
        rw [length_bitmapValues]
        exact not_lt.mp ended
      exact ⟨heap, rfl, fine, fun d mem => Or.inl mem, by simp [none_]⟩

theorem addLabelBitmaps_spec {after} (selected) (distinct : (selected.map Prod.fst).Nodup) (heap)
    (fine : HeapOk direction heap) (fresh : ∀ d ∈ heap.toList, d.label ∉ selected.map Prod.fst) :
    ∃ filled, addLabelBitmaps buckets after direction sourceGlobalId selected heap = .ok filled ∧
      HeapOk direction filled ∧ ∀ p, Remains filled p ↔ Remains heap p ∨
        ∃ entry ∈ selected, Offers buckets after direction sourceGlobalId entry p := by
  induction selected generalizing heap with
  | nil => exact ⟨heap, rfl, fine, by simp⟩
  | cons entry rest ih =>
    rw [map_cons, nodup_cons] at distinct
    obtain ⟨next, added, kept, labels, remains⟩ := addLabelBitmap_spec fine fun d mem same =>
        fresh d mem (by rw [same]; exact mem_cons_self)
    obtain ⟨filled, ok, whole, all_⟩ := ih distinct.2 next kept (by
      intro d mem
      rcases labels d mem with old | new
      · exact fun listed => fresh d old (mem_cons_of_mem _ listed)
      · rw [new]
        exact distinct.1)
    refine ⟨filled, ?_, whole, ?_⟩
    · rw [addLabelBitmaps, added]
      exact ok
    · intro p
      rw [all_, remains, or_assoc]
      simp only [mem_cons, exists_eq_or_imp]

/-! ### Taking candidates out -/

theorem NeighborhoodBitmapCandidate.Placed.within (placed : c.Placed side) :
    c.index < c.bitmap.size ∧
      c.values = c.globalId :: (bitmapValues c.bitmap).drop (c.index + 1) := by
  obtain ⟨rest, values⟩ := placed.first
  have inside : c.index < (bitmapValues c.bitmap).length := by
    by_contra ended
    rw [NeighborhoodBitmapCandidate.values, drop_eq_nil_of_le (not_lt.mp ended)] at values
    cases values
  have shape : c.values = _ := drop_eq_getElem_cons inside
  refine ⟨length_bitmapValues c.bitmap ▸ inside, ?_⟩
  rw [values] at shape ⊢
  rw [(List.cons.inj shape).2]

/-- Behind the position of a candidate are the others that it gives. -/
def NeighborhoodBitmapCandidate.GivesLater (c : NeighborhoodBitmapCandidate)
    (p : NeighborhoodCandidatePosition) : Prop :=
  c.direction = p.direction ∧ c.label = p.label ∧
    p.globalId ∈ (bitmapValues c.bitmap).drop (c.index + 1)

theorem NeighborhoodBitmapCandidate.Placed.gives_iff (placed : c.Placed side) :
    c.Gives q ↔ c.toNeighborhoodCandidatePosition = q ∨ c.GivesLater q := by
  simp only [NeighborhoodBitmapCandidate.Gives, NeighborhoodBitmapCandidate.GivesLater,
    placed.within.2, mem_cons]
  constructor
  · rintro ⟨direction, label, here | later⟩
    · left
      obtain ⟨_, _, _⟩ := q
      dsimp only at direction label here
      subst direction label here
      rfl
    · exact Or.inr ⟨direction, label, later⟩
  · rintro (rfl | ⟨direction, label, later⟩)
    · exact ⟨rfl, rfl, Or.inl rfl⟩
    · exact ⟨direction, label, Or.inr later⟩

theorem NeighborhoodBitmapCandidate.Placed.lt (placed : c.Placed side) (later : c.GivesLater q) :
    candidateKey c < positionKey q := by
  have ascending : c.values.Pairwise fun a b => a < b :=
    (ascending_bitmapValues c.bitmap).sublist (drop_sublist _ _)
  rw [placed.within.2] at ascending
  obtain ⟨direction, label, beyond⟩ := later
  rw [candidateKey, positionKey_lt]
  exact Or.inr ⟨direction, Or.inl ((pairwise_cons.mp ascending).1 _ beyond)⟩

/-- The candidate that comes in gives what is left of the bitmap. -/
theorem HeapOk.advance (fine : HeapOk side rest) (c) (placed : c.Placed side)
    (fresh : ∀ d ∈ rest.toList, d.label ≠ c.label)
    (popped : heapPop candidateKey heap = some (c, rest)) :
    ∃ next, popAndAdvance heap = .ok (c, next) ∧ HeapOk side next ∧
      (∀ q, Remains next q ↔ c.GivesLater q ∨ Remains rest q) ∧
      candidatesLeft next + 1 = (c.bitmap.size - c.index) + candidatesLeft rest := by
  have within := placed.within.1
  rw [popAndAdvance, popped]
  dsimp only
  split
  next more =>
    obtain ⟨globalId, made, values⟩ := candidateAt_spec more
    obtain ⟨pushed, remains, left⟩ := fine.push
      ⟨⟨c.direction, globalId, c.label⟩, c.bitmap, c.index + 1⟩ ⟨placed.direction, _, values⟩ fresh
    rw [made]
    refine ⟨_, rfl, pushed, remains, ?_⟩
    rw [left]
    dsimp only
    omega
  next ended =>
    have none_ : (bitmapValues c.bitmap).drop (c.index + 1) = [] := by
      apply drop_eq_nil_of_le
      rw [length_bitmapValues]
      exact not_lt.mp ended
    refine ⟨rest, rfl, fine, ?_, ?_⟩
    · simp [NeighborhoodBitmapCandidate.GivesLater, none_]
    · omega

theorem popAndAdvance_spec (fine : HeapOk side heap)
    (sorted : (p :: ps).Pairwise fun a b => positionKey a < positionKey b)
    (remains : ∀ q, q ∈ p :: ps ↔ Remains heap q) :
    ∃ c rest, popAndAdvance heap = .ok (c, rest) ∧ c.toNeighborhoodCandidatePosition = p ∧
      HeapOk side rest ∧ (∀ q, q ∈ ps ↔ Remains rest q) ∧
      candidatesLeft heap = candidatesLeft rest + 1 := by
  -- the candidate that is taken out stands at the least position of all
  obtain ⟨least, -⟩ := pairwise_cons.mp sorted
  obtain ⟨holder, held, gives⟩ := (remains p).mp mem_cons_self
  cases popped : heapPop candidateKey heap with
  | none =>
    rw [heapPop_eq_none, Array.isEmpty_iff] at popped
    rw [popped] at held
    cases held
  | some pair =>
    obtain ⟨c, others⟩ := pair
    obtain ⟨ordered, perm, lowest⟩ := heapPop_spec candidateKey heap fine.ordered popped
    have inHeap : c ∈ heap.toList := perm.mem_iff.mpr mem_cons_self
    have placed := fine.placed c inHeap
    have values := placed.within.2
    have labels := (perm.map fun c : NeighborhoodBitmapCandidate => c.label).nodup_iff.mp fine.labels
    rw [map_cons, nodup_cons] at labels
    have fresh : ∀ d ∈ others.toList, d.label ≠ c.label := fun d member same =>
      labels.1 (mem_map.mpr ⟨d, member, same⟩)
    have whole : ∀ q, Remains heap q ↔ c.Gives q ∨ Remains others q := by
      intro q
      simp only [Remains, perm.mem_iff, mem_cons, exists_eq_or_imp]
    -- both the candidate and the position are least
    have same : c.toNeighborhoodCandidatePosition = p := by
      apply positionKey_injective
      apply le_antisymm
      · apply le_trans (lowest holder (Array.mem_def.mpr held))
        rcases ((fine.placed holder held).gives_iff).mp gives with here | later
        · exact le_of_eq (congrArg positionKey here)
        · exact le_of_lt ((fine.placed holder held).lt later)
      · have listed : c.toNeighborhoodCandidatePosition ∈ p :: ps := by
          rw [remains, whole]
          exact Or.inl ⟨rfl, rfl, by rw [values]; exact mem_cons_self⟩
        rcases mem_cons.mp listed with here | later
        · rw [here]
        · exact le_of_lt (least _ later)
    obtain ⟨next, ok, kept, left, count⟩ := HeapOk.advance ⟨ordered, fun d member =>
      fine.placed d (perm.mem_iff.mpr (mem_cons_of_mem _ member)), labels.2⟩ c placed fresh
      popped
    refine ⟨c, next, ok, same, kept, fun q => ?_, ?_⟩
    · rw [left]
      constructor
      · intro member
        have apart : p ≠ q := by
          rintro rfl
          exact lt_irrefl _ (least _ member)
        have given := (whole q).mp ((remains q).mp (mem_cons_of_mem _ member))
        rw [placed.gives_iff, same] at given
        rcases given with (here | later) | elsewhere
        · exact absurd here apart
        · exact Or.inl later
        · exact Or.inr elsewhere
      · intro given
        have listed : q ∈ p :: ps := by
          rw [remains, whole, placed.gives_iff]
          exact given.imp_left Or.inr
        rcases mem_cons.mp listed with rfl | behind
        · -- the position has been passed
          rcases given with later | ⟨d, member, -, label, -⟩
          · have above := placed.lt later
            rw [candidateKey, same] at above
            exact absurd above (lt_irrefl _)
          · rw [← same] at label
            exact absurd label (fresh d member)
        · exact behind
    · rw [count, candidatesLeft, (perm.map _).sum_nat, map_cons, sum_cons]
      rfl

/-! ### The loop -/

variable (t : IndexTree V) (limit : Nat) (after : Option NeighborhoodCandidatePosition)
  (ps : List NeighborhoodCandidatePosition) (direction : Side) (nodeId : JsString)
  (requestedLabels : List JsString) (sourceGlobalId : Nat)

namespace IndexTree

/-- Passing through a sorted list of positions instead of the heap. -/
def collectSorted (t : IndexTree V) (limit : Nat) :
    List NeighborhoodCandidatePosition → NeighborhoodBitmapPageResult → NeighborhoodBitmapPageResult
  | [], page => page
  | p :: ps, page =>
    match t.resolveLiveNode p.globalId with
    | none => t.collectSorted limit ps page
    | some neighborId =>
      if page.edges.length = limit then { page with hasMore := true }
      else t.collectSorted limit ps (page.list p neighborId)

theorem collectLoop_eq (fuel) (fine : HeapOk side heap) (ps)
    (sorted : ps.Pairwise fun a b => positionKey a < positionKey b)
    (remains : ∀ q, q ∈ ps ↔ Remains heap q) (enough : candidatesLeft heap ≤ fuel) (page) :
    t.collectLoop limit fuel heap page = .ok (t.collectSorted limit ps page) := by
  induction fuel generalizing heap ps page with
  | zero =>
    cases ps with
    | nil => rfl
    | cons p ps =>
      obtain ⟨c, rest, -, -, -, -, count⟩ := popAndAdvance_spec fine sorted remains
      omega
  | succ fuel ih =>
    cases ps with
    | nil =>
      have bare : heap.isEmpty = true := by
        rw [Array.isEmpty_iff, ← Array.toList_eq_nil_iff, eq_nil_iff_forall_not_mem]
        intro c member
        have gives := ((fine.placed c member).gives_iff).mpr (Or.inl rfl)
        exact not_mem_nil ((remains _).mpr ⟨c, member, gives⟩)
      rw [collectLoop, if_pos bare]
      rfl
    | cons p ps =>
      obtain ⟨c, rest, popped, same, kept, left, count⟩ :=
        popAndAdvance_spec fine sorted remains
      have some_ : ¬ heap.isEmpty = true := by
        obtain ⟨d, member, -⟩ := (remains p).mp mem_cons_self
        rw [Array.isEmpty_iff]
        rintro rfl
        cases member
      have tail := (pairwise_cons.mp sorted).2
      rw [collectLoop, if_neg some_, popped, collectSorted]
      simp only [bind, Except.bind, same]
      cases t.resolveLiveNode p.globalId with
      | none => exact ih kept ps tail left (by omega) page
      | some neighborId =>
        dsimp only
        split
        next => rfl
        next => exact ih kept ps tail left (by omega) _

/-! ### The positions of a node -/

/-- Everything that the bitmaps of a node hold, in the order of the pages. -/
def positions (t : IndexTree V) (direction : Side) (nodeId : JsString)
    (requestedLabels : List JsString) (sourceGlobalId : Nat) : List NeighborhoodCandidatePosition :=
  let buckets := t.edgeShard direction nodeId
  sortBy positionKey ((selectedLabels buckets t.labelRegistry requestedLabels).flatMap fun entry =>
    (buckets.members (.label entry.2, sourceGlobalId)).toList.map fun globalId =>
      ⟨direction, globalId, entry.1⟩)

/-- The labels that are read are listed once each. -/
def LabelsOnce (t : IndexTree V) (direction : Side) (nodeId : JsString)
    (requestedLabels : List JsString) : Prop :=
  ((selectedLabels (t.edgeShard direction nodeId) t.labelRegistry requestedLabels).map
    Prod.fst).Nodup

theorem mem_positions :
    p ∈ t.positions direction nodeId requestedLabels sourceGlobalId ↔
      ∃ entry ∈ selectedLabels (t.edgeShard direction nodeId) t.labelRegistry requestedLabels,
        p.direction = direction ∧ p.label = entry.1 ∧
          p.globalId ∈ (t.edgeShard direction nodeId).members (.label entry.2, sourceGlobalId) := by
  obtain ⟨side, globalId, label⟩ := p
  simp only [positions, mem_sortBy, mem_flatMap, mem_map, OrdSet.mem_toList,
    NeighborhoodCandidatePosition.mk.injEq]
  apply exists_congr
  intro entry
  apply and_congr_right
  intro _
  constructor
  · rintro ⟨g, member, rfl, rfl, rfl⟩
    exact ⟨rfl, rfl, member⟩
  · rintro ⟨rfl, rfl, member⟩
    exact ⟨globalId, member, rfl, rfl, rfl⟩

theorem ascending_positions (once : t.LabelsOnce direction nodeId requestedLabels) :
    (t.positions direction nodeId requestedLabels sourceGlobalId).Pairwise
      fun a b => positionKey a < positionKey b := by
  have nodup : (t.positions direction nodeId requestedLabels sourceGlobalId).Nodup := by
    rw [positions, (perm_sortBy positionKey _).nodup_iff, nodup_flatMap]
    constructor
    · intro entry _
      apply List.Nodup.map _ (OrdSet.nodup _)
      intro g g' same
      exact congrArg NeighborhoodCandidatePosition.globalId same
    · -- positions of two labels differ in the label
      apply (pairwise_map.mp once).imp
      intro entry entry' apart p here there
      obtain ⟨g, -, rfl⟩ := mem_map.mp here
      obtain ⟨g', -, same⟩ := mem_map.mp there
      exact apart (congrArg NeighborhoodCandidatePosition.label same).symm
  apply ((pairwise_sortBy positionKey _).and nodup).imp
  rintro a b ⟨below, apart⟩
  exact lt_of_le_of_ne below fun same => apart (positionKey_injective same)

instance (after : Option NeighborhoodCandidatePosition) (p : NeighborhoodCandidatePosition) :
    Decidable (Behind after p) :=
  inferInstanceAs (Decidable (∀ q ∈ after, positionKey q < positionKey p))

/-- The positions behind which the reading resumes. -/
def behind (after : Option NeighborhoodCandidatePosition)
    (ps : List NeighborhoodCandidatePosition) : List NeighborhoodCandidatePosition :=
  ps.filter fun p => decide (Behind after p)

theorem readCandidateHeap_spec (once : t.LabelsOnce direction nodeId requestedLabels) :
    ∃ heap, t.readCandidateHeap after direction nodeId requestedLabels sourceGlobalId = .ok heap ∧
      HeapOk direction heap ∧ ∀ q, q ∈ behind after
        (t.positions direction nodeId requestedLabels sourceGlobalId) ↔ Remains heap q := by
  obtain ⟨heap, ok, fine, remains⟩ := addLabelBitmaps_spec _ once #[] heapOk_empty (by simp)
  refine ⟨heap, ok, fine, fun q => ?_⟩
  have none_ : ¬ Remains #[] q := by simp [Remains]
  rw [remains, or_iff_right none_, behind, mem_filter, mem_positions, decide_eq_true_eq]
  constructor
  · rintro ⟨⟨entry, member, direction, label, held⟩, later⟩
    exact ⟨entry, member, direction, label, held, later⟩
  · rintro ⟨entry, member, direction, label, held, later⟩
    exact ⟨⟨entry, member, direction, label, held⟩, later⟩

/-! ### Pages -/

theorem collectSorted_append (qs page) (open_ : page.hasMore = false) :
    t.collectSorted limit (ps ++ qs) page =
      if (t.collectSorted limit ps page).hasMore then t.collectSorted limit ps page
      else t.collectSorted limit qs (t.collectSorted limit ps page) := by
  induction ps generalizing page with
  | nil => simp [collectSorted, open_]
  | cons p ps ih =>
    rw [cons_append, collectSorted, collectSorted]
    cases t.resolveLiveNode p.globalId with
    | none => exact ih page open_
    | some neighborId =>
      dsimp only
      split
      next => rfl
      next => exact ih _ rfl

theorem collectDirections_eq (sides) (once : ∀ side, t.LabelsOnce side nodeId requestedLabels)
    (page) (open_ : page.hasMore = false) :
    t.collectDirections limit after nodeId requestedLabels sourceGlobalId sides page =
      .ok (t.collectSorted limit (sides.flatMap fun side =>
        behind after (t.positions side nodeId requestedLabels sourceGlobalId)) page) := by
  induction sides generalizing page with
  | nil => rfl
  | cons side rest ih =>
    obtain ⟨heap, read, fine, remains⟩ := t.readCandidateHeap_spec after side nodeId
      requestedLabels sourceGlobalId (once side)
    have sorted := (t.ascending_positions side nodeId requestedLabels sourceGlobalId
      (once side)).sublist (filter_sublist (p := fun p => decide (Behind after p)))
    have loop := t.collectLoop_eq limit _ fine _ sorted remains le_rfl page
    rw [flatMap_cons, collectSorted_append t limit _ _ page open_, collectDirections, read]
    simp only [bind, Except.bind, loop]
    split
    next more =>
      rw [← behind] at more
      rw [if_pos more]
      rfl
    next done =>
      rw [← behind] at done ⊢
      rw [if_neg done]
      exact ih _ (by simpa using done)

/-- Everything that a reading goes through. -/
def wholePositions (t : IndexTree V) (direction : Direction) (nodeId : JsString)
    (requestedLabels : List JsString) (sourceGlobalId : Nat) : List NeighborhoodCandidatePosition :=
  (requestedDirections direction).flatMap fun side =>
    t.positions side nodeId requestedLabels sourceGlobalId

theorem ascending_wholePositions (direction) {nodeId requestedLabels} (sourceGlobalId)
    (once : ∀ side, t.LabelsOnce side nodeId requestedLabels) :
    (t.wholePositions direction nodeId requestedLabels sourceGlobalId).Pairwise
      fun a b => positionKey a < positionKey b := by
  rw [wholePositions, pairwise_flatMap]
  refine ⟨fun side _ => t.ascending_positions side nodeId requestedLabels sourceGlobalId (once side),
    ?_⟩
  -- incoming edges come before outgoing ones
  have ordered : (requestedDirections direction).Pairwise
      fun a b => directionOrder a < directionOrder b := by
    cases direction <;> simp [requestedDirections, directionOrder]
  apply ordered.imp
  intro side side' below p here q there
  obtain ⟨-, -, direction, -⟩ := (t.mem_positions side nodeId _ _).mp here
  obtain ⟨-, -, direction', -⟩ := (t.mem_positions side' nodeId _ _).mp there
  rw [positionKey_lt, direction, direction']
  exact Or.inl below

theorem collectNeighborhoodBitmapPage_eq {direction nodeId requestedLabels sourceGlobalId}
    (once : ∀ side, t.LabelsOnce side nodeId requestedLabels) :
    t.collectNeighborhoodBitmapPage limit after direction nodeId requestedLabels sourceGlobalId =
      .ok (t.collectSorted limit (behind after (t.wholePositions direction nodeId requestedLabels
        sourceGlobalId)) ⟨[], false, after, []⟩) := by
  rw [collectNeighborhoodBitmapPage, collectDirections_eq t _ _ _ _ _ _ once _ rfl]
  congr 2
  rw [wholePositions, behind, filter_flatMap, readableDirections]
  -- a direction that is not read again has no position behind the cursor
  induction requestedDirections direction with
  | nil => rfl
  | cons side rest ih =>
    rw [filter_cons, flatMap_cons, ← ih]
    split
    next => rfl
    next passed =>
      cases after with
      | none => simp at passed
      | some q =>
        have none_ : (t.positions side nodeId requestedLabels sourceGlobalId).filter
            (fun p => decide (Behind (some q) p)) = [] := by
          apply filter_eq_nil_iff.mpr
          intro p mem later
          obtain ⟨-, -, here, -⟩ := (t.mem_positions side nodeId _ _).mp mem
          simp only [Behind, Option.mem_some_iff, forall_eq', decide_eq_true_eq, positionKey_lt]
            at later
          simp only [Option.all_some, decide_eq_true_eq] at passed
          rw [here] at later
          rcases later with above | ⟨same, -⟩
          · exact passed (le_of_lt above)
          · exact passed (le_of_eq (congrArg directionOrder same))
        rw [none_, nil_append]

/-- The edge that a position lists, if its node is alive. -/
def listed (t : IndexTree V) (p : NeighborhoodCandidatePosition) : Option NeighborhoodOpticEdge :=
  (t.resolveLiveNode p.globalId).map fun neighborId => ⟨p.direction, neighborId, p.label⟩

def live (t : IndexTree V) (ps : List NeighborhoodCandidatePosition) :
    List NeighborhoodCandidatePosition :=
  ps.filter fun p => (t.resolveLiveNode p.globalId).isSome

theorem collectSorted_live (page) :
    t.collectSorted limit ps page = t.collectSorted limit (t.live ps) page := by
  induction ps generalizing page with
  | nil => rfl
  | cons p ps ih =>
    rw [live, filter_cons, collectSorted]
    cases alive : t.resolveLiveNode p.globalId with
    | none =>
      exact ih page
    | some neighborId =>
      dsimp only [Option.isSome_some]
      rw [if_pos rfl, collectSorted, alive]
      split
      next => rfl
      next => exact ih _

theorem collectSorted_spec (alive : ∀ p ∈ ps, (t.resolveLiveNode p.globalId).isSome = true) (page)
    (open_ : page.hasMore = false) :
    ∃ taken left, ps = taken ++ left ∧
      (t.collectSorted limit ps page).edges = page.edges ++ taken.filterMap t.listed ∧
      ((t.collectSorted limit ps page).hasMore = true ↔ left ≠ []) ∧
      (left ≠ [] → (t.collectSorted limit ps page).edges.length = limit) ∧
      (t.collectSorted limit ps page).last = taken.getLast?.or page.last := by
  -- a page takes the live positions up to its limit and knows whether there are more
  induction ps generalizing page with
  | nil => exact ⟨[], [], rfl, by simp [collectSorted], by simp [collectSorted, open_], by simp, rfl⟩
  | cons p ps ih =>
    obtain ⟨neighborId, found⟩ := Option.isSome_iff_exists.mp (alive p mem_cons_self)
    rw [collectSorted, found]
    dsimp only
    split
    next full => exact ⟨[], p :: ps, rfl, by simp, by simp, fun _ => full, rfl⟩
    next =>
      obtain ⟨taken, left, rfl, edges, more, count, last⟩ := ih
        (forall_mem_cons.mp alive).2 (page.list p neighborId) rfl
      refine ⟨p :: taken, left, rfl, ?_, more, count, ?_⟩
      · rw [edges, filterMap_cons, listed, found]
        simp [NeighborhoodBitmapPageResult.list]
      · rw [last]
        cases taken using List.reverseRecOn with
        | nil => rfl
        | append_singleton init q =>
          rw [← cons_append, List.getLast?_concat, List.getLast?_concat]
          rfl

/-- The edges of a reading from a position on. -/
def restOf (t : IndexTree V) (whole : List NeighborhoodCandidatePosition)
    (after : Option NeighborhoodCandidatePosition) : List NeighborhoodOpticEdge :=
  (t.live (behind after whole)).filterMap t.listed

/-- A page that has no more ends the reading; any other leaves the rest to the position of the last
edge it lists. -/
theorem page_restOf (room : 0 < limit) (whole)
    (sorted : whole.Pairwise fun a b => positionKey a < positionKey b) {after} (page)
    (collected : page = t.collectSorted limit (behind after whole) ⟨[], false, after, []⟩) :
    (page.hasMore = false → page.edges = t.restOf whole after) ∧
    (page.hasMore = true → ∃ q ∈ whole, page.last = some q ∧
      t.restOf whole after = page.edges ++ t.restOf whole (some q)) := by
  obtain ⟨taken, left, shape, edges, more, count, last⟩ := t.collectSorted_spec limit
    (t.live (behind after whole)) (fun p mem => (mem_filter.mp mem).2)
    ⟨[], false, after, []⟩ rfl
  rw [← collectSorted_live, ← collected] at edges more count last
  rw [nil_append] at edges
  constructor
  · intro ended
    have none_ : left = [] := by
      by_contra some_
      rw [more.mpr some_] at ended
      cases ended
    rw [restOf, shape, none_, append_nil, edges]
  · intro unended
    have some_ := more.mp unended
    have full := count some_
    cases taken using List.reverseRecOn with
    | nil =>
      rw [edges] at full
      simp at full
      omega
    | append_singleton init q =>
      have inside : q ∈ behind after whole := by
        have mem : q ∈ t.live (behind after whole) := by
          rw [shape]
          simp
        exact (mem_filter.mp mem).1
      obtain ⟨listed_, resumes⟩ := mem_filter.mp inside
      rw [decide_eq_true_eq] at resumes
      refine ⟨q, listed_, by rw [last, List.getLast?_concat]; rfl, ?_⟩
      rw [restOf, shape, filterMap_append, edges, restOf]
      congr 1
      -- behind the last edge of the page is what the page has left
      have again : t.live (behind (some q) whole) = behind (some q) (t.live (behind after whole)) := by
        rw [live, live, behind, behind, behind, filter_filter, filter_filter, filter_filter]
        apply filter_congr
        intro p _
        by_cases later : Behind (some q) p
        · have first : Behind after p := fun r mem =>
            lt_trans (resumes r mem) (later q rfl)
          simp [later, first]
        · simp [later]
      have ascending : (init ++ [q] ++ left).Pairwise fun a b => positionKey a < positionKey b := by
        rw [← shape]
        exact (sorted.sublist filter_sublist).sublist filter_sublist
      rw [pairwise_append] at ascending
      obtain ⟨early, -, across⟩ := ascending
      have before : behind (some q) (init ++ [q]) = [] := by
        apply filter_eq_nil_iff.mpr
        intro p mem
        rw [pairwise_append] at early
        simp only [Behind, Option.mem_some_iff, forall_eq', decide_eq_true_eq, not_lt]
        rcases mem_append.mp mem with earlier | here
        · exact le_of_lt (early.2.2 p earlier q mem_cons_self)
        · rw [mem_singleton.mp here]
      have beyond : behind (some q) left = left := by
        apply filter_eq_self.mpr
        intro p mem
        simp only [Behind, Option.mem_some_iff, forall_eq', decide_eq_true_eq]
        exact across q (by simp) p mem
      rw [again, shape, behind, filter_append, ← behind, ← behind, before, beyond, nil_append]

end IndexTree
end GitWarp
