import GitWarp.History.Coordinate
import GitWarp.Sync.SyncProtocol

/-!
# What a responder answers

If the requester's tip of a writer is on the responder's chain, or the requester has
none, the patches after it are sent; otherwise nothing is. The object that carries the
requester's frontier loses one key, and a tip that the ancestry check does not know ends
the whole request.
-/
namespace GitWarp

open Js Lib List

variable {V : Type}

/-! ### Delta and frontiers -/

theorem get_neededRanges (nodup : (theirs.map Prod.fst).Nodup) (need) (w) :
    (neededRanges mine theirs need).get w =
      match assocGet theirs w with
      | none => need.get w
      | some sha => if mine.get w = some sha then need.get w else some ⟨mine.get w, sha⟩ := by
  induction theirs generalizing need with
  | nil => rfl
  | cons first rest ih =>
    obtain ⟨writerId, theirSha⟩ := first
    rw [map_cons, nodup_cons] at nodup
    have absent : writerId = w → assocGet rest w = none := by
      rintro rfl
      exact (assocGet_eq_none_iff rest writerId).mpr nodup.1
    rw [neededRanges, assocGet]
    by_cases same : writerId = w
    · subst same
      rw [if_pos rfl]
      cases found : mine.get writerId with
      | none => simp [ih nodup.2, absent rfl]
      | some mySha =>
        by_cases equal : mySha = theirSha
        · simp [ih nodup.2, absent rfl, equal]
        · simp [ih nodup.2, absent rfl, equal]
    · rw [if_neg same]
      cases found : mine.get writerId with
      | none => simp [ih nodup.2, same]
      | some mySha =>
        by_cases equal : mySha = theirSha
        · simp [ih nodup.2, equal]
        · simp [ih nodup.2, equal, same]

theorem get_needFromRemote (mine theirs w) :
    (computeSyncDelta mine theirs).needFromRemote.get w =
      match theirs.get w with
      | none => none
      | some sha => if mine.get w = some sha then none else some ⟨mine.get w, sha⟩ := by
  rw [computeSyncDelta, get_neededRanges theirs.nodup]
  rfl

/-- The object of a frontier has every writer but `__proto__`. -/
theorem get_frontierToObject (frontier w) :
    (frontierToObject frontier).get w = if w = protoKey then none else frontier.get w := by
  obtain ⟨entries, nodup⟩ := frontier
  have general : ∀ obj : Frontier,
      (entries.foldl (fun obj entry => assignProperty obj entry.1 entry.2) obj).get w =
        if w = protoKey then obj.get w else (assocGet entries w).or (obj.get w) := by
    induction entries with
    | nil =>
      intro obj
      simp [assocGet]
    | cons first rest ih =>
      intro obj
      obtain ⟨writerId, sha⟩ := first
      rw [map_cons, nodup_cons] at nodup
      rw [foldl_cons, ih nodup.2, assocGet, assignProperty]
      by_cases same : writerId = w
      · subst same
        by_cases proto : writerId = protoKey
        · simp [proto]
        · simp [proto, (assocGet_eq_none_iff rest writerId).mpr nodup.1]
      · by_cases proto : w = protoKey
        · simp only [proto, if_true]
          split
          · rfl
          next other => rw [OrdMap.get_set, if_neg other]
        · simp only [proto, same, if_false]
          split
          · rfl
          · rw [OrdMap.get_set, if_neg same]
  rw [frontierToObject, general, OrdMap.get_empty, Option.or_none]
  rfl

theorem get_objectToFrontier (obj w) : (objectToFrontier obj).get w = obj.get w := by
  obtain ⟨entries, nodup⟩ := obj
  rw [objectToFrontier, OrdMap.get_ofList]
  simp only [OrdMap.get]
  induction entries with
  | nil => rfl
  | cons first rest ih =>
    rw [map_cons, nodup_cons] at nodup
    rw [assocGet]
    by_cases same : first.1 = w
    · have none_left : rest.filter (fun pair => decide (pair.1 = w)) = [] := by
        rw [filter_eq_nil_iff]
        intro pair mem
        simp only [decide_eq_true_eq]
        rintro rfl
        exact nodup.1 (same ▸ mem_map_of_mem mem)
      simp [same, none_left]
    · rw [filter_cons_of_neg (by simpa using same), if_neg same]
      exact ih nodup.2

/-! ### Ranges of a chain -/

theorem loadRangeLoop_patches (fromSha) (commits : List (JsString × Commit V)) (cur) :
    (loadRangeLoop fromSha commits (some cur)).1 = walkBack fromSha commits cur := by
  induction commits generalizing cur with
  | nil => rfl
  | cons first older ih =>
    obtain ⟨sha, commit⟩ := first
    rw [loadRangeLoop, walkBack]
    split
    · rfl
    · split
      · cases commit.parent with
        | none => simp [loadRangeLoop]
        | some p => simp [ih]
      · exact ih cur

theorem loadRangeLoop_end (stop) (commits : List (JsString × Commit V)) (cur) (apart : cur ≠ stop) :
    (loadRangeLoop (some stop) commits (some cur)).2 = none ↔
      parentWalk stop commits cur = false := by
  induction commits generalizing cur with
  | nil => simp [loadRangeLoop, parentWalk, apart]
  | cons first older ih =>
    obtain ⟨sha, commit⟩ := first
    rw [loadRangeLoop, parentWalk, if_neg (by simpa using apart)]
    split
    · cases parent : commit.parent with
      | none => simp [loadRangeLoop]
      | some p =>
        by_cases arrived : p = stop
        · subst arrived
          cases older <;> simp [loadRangeLoop]
        · simp [arrived, ih p arrived]
    · exact ih cur apart

variable (store : CommitStore V)

namespace CommitStore

theorem isAncestor_iff {a d : JsString} (named : a ≠ []) (tipped : d ≠ [])
    (stored : store.has d = true) :
    store.isAncestor a d = true ↔ a ∈ (store.chain d).map PatchEntry.sha := by
  by_cases same : a = d
  · subst same
    have own := mem_walkBack_self store.commits (of_decide_eq_true stored)
    simp [isAncestor, named, chain, loadPatchChainFromSha, own]
  · constructor
    · exact store.mem_chain_of_isAncestor same
    · intro mem
      rw [chain, loadPatchChainFromSha, if_neg tipped] at mem
      simp [isAncestor, named, tipped, parentWalk_of_mem_walkBack store.commits a d same mem]

theorem loadPatchRange_eq (w a d : JsString) (named : a ≠ []) (tipped : d ≠ []) (apart : a ≠ d) :
    loadPatchRange store w (some a) d =
      if a ∈ (store.chain d).map PatchEntry.sha then
        .ok (store.loadPatchChainFromSha d (some a))
      else .error (syncDivergence w a d) := by
  -- a range is loaded when the chain passes through its start, and diverges otherwise
  have given : givenSha (some a) = some a := by simp [givenSha, named]
  have ending := loadRangeLoop_end a store.commits d (Ne.symm apart)
  have patches : (loadRangeLoop (some a) store.commits (some d)).1 =
      store.loadPatchChainFromSha d (some a) := by
    rw [loadRangeLoop_patches, loadPatchChainFromSha, if_neg tipped]
  rw [loadPatchRange]
  simp only [given]
  by_cases inside : a ∈ (store.chain d).map PatchEntry.sha
  · have met : parentWalk a store.commits d = true := by
      rw [chain, loadPatchChainFromSha, if_neg tipped] at inside
      exact parentWalk_of_mem_walkBack store.commits a d apart inside
    rw [if_pos inside]
    cases reached : (loadRangeLoop (some a) store.commits (some d)).2 with
    | none =>
      rw [ending.mp reached] at met
      cases met
    | some sha => simp only [patches]
  · have missed : parentWalk a store.commits d = false := by
      by_contra met
      rw [Bool.not_eq_false] at met
      apply inside
      rw [chain, loadPatchChainFromSha, if_neg tipped]
      exact mem_walkBack_of_parentWalk store.commits store.closed a d met
    rw [if_neg inside, ending.mpr missed]

theorem loadPatchRange_none {w d : JsString} (tipped : d ≠ []) :
    loadPatchRange store w none d = .ok (store.chain d) := by
  rw [loadPatchRange]
  simp only [givenSha, Option.filter_none]
  rw [loadRangeLoop_patches, chain, loadPatchChainFromSha, if_neg tipped]

end CommitStore

/-! ### One writer of the answer -/

def sentPatches (p : Persistence V) (w : JsString) (range : WriterRange) : List (PatchEntry V) :=
  match loadWriterPatches p w range with
  | .ok (some entries) => entries
  | _ => []

/-- The writer is either served or skipped. -/
def Answers (p : Persistence V) (w : JsString) (range : WriterRange) : Prop :=
  ∀ e, loadWriterPatches p w range = .error e → isSyncDivergence e = true

theorem isSyncDivergence_syncDivergence : isSyncDivergence (syncDivergence w a d) = true := by
  simp [isSyncDivergence, syncDivergence]

variable (p : Persistence V)

theorem loadWriterPatches_new {w d : JsString} (tipped : d ≠ []) :
    loadWriterPatches p w ⟨none, d⟩ = .ok (some (p.store.chain d)) := by
  simp [loadWriterPatches, givenSha, p.store.loadPatchRange_none tipped, Functor.map, Except.map]

/-- A writer that the requester knows: an unknown tip stops the ancestry check; otherwise the
patches after the tip are sent, if the chain passes through it. -/
theorem loadWriterPatches_known {w a d : JsString} (named : a ≠ []) (tipped : d ≠ [])
    (apart : a ≠ d) (stored : p.store.has d = true) :
    loadWriterPatches p w ⟨some a, d⟩ =
      if p.hasIsAncestor = true ∧ p.store.has a = false then
        .error ⟨.gitError, lit "128", lit "fatal: Not a valid commit name"⟩
      else if a ∈ (p.store.chain d).map PatchEntry.sha then
        .ok (some (p.store.loadPatchChainFromSha d (some a)))
      else if p.hasIsAncestor = true then .ok none
      else .error (syncDivergence w a d) := by
  have given : givenSha (some a) = some a := by simp [givenSha, named]
  have range := p.store.loadPatchRange_eq w a d named tipped apart
  have ancestry := p.store.isAncestor_iff named tipped stored
  rw [loadWriterPatches]
  simp only [given]
  cases checks : p.hasIsAncestor with
  | false =>
    simp only [range, Bool.false_eq_true, false_and, if_false]
    split <;> rfl
  | true =>
    simp only [true_and, if_true, Persistence.isAncestor, stored, Bool.and_true]
    cases known : p.store.has a with
    | false => rfl
    | true =>
      by_cases inside : a ∈ (p.store.chain d).map PatchEntry.sha
      · rw [ancestry.mpr inside, range, if_pos inside, if_pos inside]
        rfl
      · rw [Bool.eq_false_of_not_eq_true (mt ancestry.mp inside), if_neg inside]
        rfl

theorem answers_new {w d : JsString} (tipped : d ≠ []) : Answers p w ⟨none, d⟩ := by
  intro e failed
  rw [loadWriterPatches_new p tipped] at failed
  cases failed

theorem answers_known_iff {w a d : JsString} (named : a ≠ []) (tipped : d ≠ []) (apart : a ≠ d)
    (stored : p.store.has d = true) :
    Answers p w ⟨some a, d⟩ ↔ (p.hasIsAncestor = true → p.store.has a = true) := by
  rw [Answers, loadWriterPatches_known p named tipped apart stored]
  constructor
  · intro answers checks
    by_contra unknown
    rw [Bool.not_eq_true] at unknown
    have failed := answers _ (if_pos ⟨checks, unknown⟩)
    revert failed
    decide
  · intro known e failed
    have passes : ¬ (p.hasIsAncestor = true ∧ p.store.has a = false) := by
      rintro ⟨checks, unknown⟩
      rw [known checks] at unknown
      cases unknown
    rw [if_neg passes] at failed
    split at failed
    · cases failed
    · split at failed
      · cases failed
      · cases failed
        exact isSyncDivergence_syncDivergence

theorem sentPatches_new {w d : JsString} (tipped : d ≠ []) :
    sentPatches p w ⟨none, d⟩ = p.store.chain d := by
  rw [sentPatches, loadWriterPatches_new p tipped]

theorem sentPatches_known {w a d : JsString} (named : a ≠ []) (tipped : d ≠ []) (apart : a ≠ d)
    (stored : p.store.has d = true) (answers : Answers p w ⟨some a, d⟩) :
    sentPatches p w ⟨some a, d⟩ =
      if a ∈ (p.store.chain d).map PatchEntry.sha then p.store.loadPatchChainFromSha d (some a)
      else [] := by
  have known := (answers_known_iff p named tipped apart stored).mp answers
  have passes : ¬ (p.hasIsAncestor = true ∧ p.store.has a = false) := by
    rintro ⟨checks, unknown⟩
    rw [known checks] at unknown
    cases unknown
  rw [sentPatches, loadWriterPatches_known p named tipped apart stored, if_neg passes]
  by_cases inside : a ∈ (p.store.chain d).map PatchEntry.sha
  · simp only [inside, if_true]
  · simp only [inside, if_false]
    split
    next served =>
      split at served <;> cases served
    · rfl

/-! ### The whole answer -/

/-- What a page shows of all the patches. -/
def SyncPageRequest.slice {A : Type} (page : SyncPageRequest) (items : List A) : List A :=
  match page.maxPatches with
  | none => items.drop page.cursorOffset
  | some budget => (items.drop page.cursorOffset).take budget

/-- More patches than the page reaches. -/
def SyncPageRequest.Exceeded (page : SyncPageRequest) (count : Nat) : Prop :=
  ∃ budget, page.maxPatches = some budget ∧ page.cursorOffset + budget < count

/-- Where the loop stands after the given patches and skipped writers. -/
structure Fills (page : SyncPageRequest) (items : List (SyncPatchEntry V)) (skipped : List JsString)
    (progress : SyncProgress V) : Prop where
  patches : progress.patches = page.slice items
  hasMore : progress.hasMore = true ↔ page.Exceeded items.length
  cursor : ∀ budget, page.maxPatches = some budget → progress.hasMore = true →
    progress.cursor = some (numberText (page.cursorOffset + budget))
  seen : progress.hasMore = false → progress.seenPatches = items.length ∧
    progress.skippedWriters.map SkippedWriterEntry.writerId = skipped

theorem Fills.start : Fills (V := V) page [] [] .start := by
  constructor
  · rw [SyncPageRequest.slice]
    split <;> simp [SyncProgress.start]
  · simp [SyncProgress.start, SyncPageRequest.Exceeded]
  · intro budget _ more
    cases more
  · exact fun _ => ⟨rfl, rfl⟩

namespace Fills

variable {page : SyncPageRequest} {items : List (SyncPatchEntry V)} {skipped : List JsString}
  {progress : SyncProgress V}

section

variable (fills : Fills page items skipped progress)
include fills

theorem extend (more : progress.hasMore = true) :
    Fills page (items ++ further) skipped' progress := by
  obtain ⟨budget, limited, exceeded⟩ := fills.hasMore.mp more
  constructor
  · rw [fills.patches]
    simp only [SyncPageRequest.slice, limited]
    rw [drop_append_of_le_length (by omega),
      take_append_of_le_length (by rw [length_drop]; omega)]
  · simp only [more, true_iff]
    exact ⟨budget, limited, by rw [length_append]; omega⟩
  · exact fills.cursor
  · intro stopped
    rw [more] at stopped
    cases stopped

theorem push (going : progress.hasMore = false) (item) :
    Fills page (items ++ [item]) skipped (appendPatchForPage page progress item) := by
  obtain ⟨seen, listed⟩ := fills.seen going
  have fits : ¬ page.Exceeded items.length := by
    rw [← fills.hasMore, going]
    exact Bool.false_ne_true
  have shown := fills.patches
  obtain ⟨maxPatches, offset⟩ := page
  simp only [SyncPageRequest.Exceeded, SyncPageRequest.slice] at fits shown ⊢
  rw [appendPatchForPage, seen]
  by_cases early : items.length < offset
  · -- a patch before the cursor is only counted
    simp only [early, if_true]
    have none_ : items.drop offset = [] := drop_eq_nil_of_le (by omega)
    have still : (items ++ [item]).drop offset = [] :=
      drop_eq_nil_of_le (by simp; omega)
    refine ⟨?_, ?_, fun _ _ more => Bool.noConfusion more, fun _ => ⟨by simp, listed⟩⟩
    · simp only [shown, SyncPageRequest.slice, none_, still]
    · simp only [Bool.false_eq_true, false_iff, SyncPageRequest.Exceeded, length_append]
      rintro ⟨budget, -, exceeded⟩
      simp only [length_singleton] at exceeded
      omega
  · simp only [early, if_false]
    have pushed : (items ++ [item]).drop offset = items.drop offset ++ [item] :=
      drop_append_of_le_length (by omega)
    cases maxPatches with
    | none =>
      refine ⟨?_, ?_, fun _ limited => (by cases limited), fun _ => ⟨by simp, listed⟩⟩
      · simp only [Option.any_none, Bool.false_eq_true, if_false, SyncPageRequest.slice, shown,
          pushed]
      · simp [SyncPageRequest.Exceeded]
    | some budget =>
      have within : items.length ≤ offset + budget := by
        by_contra exceeded
        exact fits ⟨budget, rfl, by omega⟩
      have whole : (items.drop offset).take budget = items.drop offset :=
        take_of_length_le (by rw [length_drop]; omega)
      have room : budget ≤ progress.patches.length ↔ items.length = offset + budget := by
        simp only [shown, whole, length_drop]
        omega
      simp only [Option.any_some, decide_eq_true_eq, room]
      by_cases filled : items.length = offset + budget
      · -- the first patch that does not fit ends the page
        simp only [filled, if_true]
        refine ⟨?_, ?_, fun _ limited _ => ?_, fun stopped => Bool.noConfusion stopped⟩
        · simp only [shown, SyncPageRequest.slice, pushed]
          rw [take_append_of_le_length (by rw [length_drop]; omega)]
        · simp [SyncPageRequest.Exceeded, filled]
        · cases limited
          rfl
      · simp only [filled, if_false]
        refine ⟨?_, ?_, fun _ _ more => Bool.noConfusion more, fun _ => ⟨by simp, listed⟩⟩
        · simp only [shown, SyncPageRequest.slice, pushed, whole]
          rw [take_of_length_le (by simp; omega)]
        · simp [SyncPageRequest.Exceeded]
          omega

theorem append (going : progress.hasMore = false) (w) :
    Fills page (items ++ entries.map (SyncPatchEntry.mk w)) skipped
      (appendPatches page w entries progress) := by
  induction entries generalizing items progress with
  | nil => simpa [appendPatches] using fills
  | cons entry rest ih =>
    have pushed := fills.push going ⟨w, entry⟩
    rw [appendPatches, map_cons, append_cons]
    split
    next more => exact pushed.extend more
    next more => exact ih pushed (Bool.eq_false_of_not_eq_true more)

end

end Fills

/-- The patches of the ranges, in the order of the loop. -/
def answerPatches (p : Persistence V) (ranges : List (JsString × WriterRange)) :
    List (SyncPatchEntry V) :=
  ranges.flatMap fun range => (sentPatches p range.1 range.2).map (SyncPatchEntry.mk range.1)

/-- Whether the writer of a range is skipped. -/
def skipsWriter (p : Persistence V) (range : JsString × WriterRange) : Bool :=
  match loadWriterPatches p range.1 range.2 with
  | .ok (some _) => false
  | _ => true

section
variable {page : SyncPageRequest} {items : List (SyncPatchEntry V)} {skipped : List JsString}
  {progress : SyncProgress V}

theorem Fills.writer {range} (fills : Fills page items skipped progress)
    (going : progress.hasMore = false) (answers : Answers p range.1 range.2) :
    ∃ next, processWriter p page range.1 range.2 progress = .ok next ∧
      Fills page (items ++ answerPatches p [range])
        (skipped ++ ([range].filter (skipsWriter p)).map Prod.fst) next := by
  obtain ⟨w, range⟩ := range
  obtain ⟨seen, listed⟩ := fills.seen going
  have passed : ∀ entry : SkippedWriterEntry, entry.writerId = w →
      Fills page (items ++ []) (skipped ++ [w])
        { progress with skippedWriters := progress.skippedWriters ++ [entry] } := by
    rintro entry rfl
    rw [append_nil]
    exact ⟨fills.patches, fills.hasMore, fills.cursor, fun _ => ⟨seen, by simp [listed]⟩⟩
  cases loaded : loadWriterPatches p w range with
  | error e =>
    have skips : skipsWriter p (w, range) = true := by simp only [skipsWriter, loaded]
    simp only [processWriter, answerPatches, sentPatches, loaded, answers e loaded, if_true,
      flatMap_singleton, filter_cons, skips]
    exact ⟨_, rfl, passed _ rfl⟩
  | ok found =>
    cases found with
    | none =>
      have skips : skipsWriter p (w, range) = true := by simp only [skipsWriter, loaded]
      simp only [processWriter, answerPatches, sentPatches, loaded, flatMap_singleton,
        filter_cons, skips, if_true]
      exact ⟨_, rfl, passed _ rfl⟩
    | some entries =>
      have serves : skipsWriter p (w, range) = false := by simp only [skipsWriter, loaded]
      simp only [processWriter, answerPatches, sentPatches, loaded, flatMap_singleton,
        filter_cons, serves]
      exact ⟨_, rfl, by simpa using fills.append going w⟩

/-- The loop over writers that are all served or skipped. -/
theorem Fills.ranges (fills : Fills page items skipped progress) (ranges)
    (answers : ∀ range ∈ ranges, Answers p range.1 range.2) :
    ∃ final, processRanges p page ranges progress = .ok final ∧
      Fills page (items ++ answerPatches p ranges)
        (skipped ++ (ranges.filter (skipsWriter p)).map Prod.fst) final := by
  induction ranges generalizing items skipped progress with
  | nil => exact ⟨progress, rfl, by simpa [answerPatches] using fills⟩
  | cons range rest ih =>
    rw [processRanges]
    by_cases more : progress.hasMore = true
    · rw [if_pos more]
      exact ⟨progress, rfl, fills.extend more⟩
    · obtain ⟨next, processed, filled⟩ := fills.writer p (Bool.eq_false_of_not_eq_true more)
        (answers range mem_cons_self)
      obtain ⟨final, finished, all⟩ := ih filled
        (forall_mem_cons.mp answers).2
      refine ⟨final, ?_, ?_⟩
      · rw [if_neg more, processed]
        exact finished
      · have parts : range :: rest = [range] ++ rest := rfl
        rw [parts, answerPatches, flatMap_append, filter_append, map_append,
          ← append_assoc, ← append_assoc]
        exact all

theorem Fills.going (fills : Fills .unbounded items skipped progress) :
    progress.hasMore = false := by
  rw [← Bool.not_eq_true, fills.hasMore]
  rintro ⟨budget, limited, -⟩
  cases limited

theorem answers_of_processRanges (fills : Fills .unbounded items skipped progress) {ranges}
    (finished : processRanges p .unbounded ranges progress = .ok final) :
    ∀ range ∈ ranges, Answers p range.1 range.2 := by
  induction ranges generalizing items skipped progress with
  | nil => exact fun _ mem => nomatch mem
  | cons range rest ih =>
    rw [processRanges, fills.going] at finished
    obtain ⟨next, processed, later⟩ := bind_eq_ok.mp finished
    have answered : Answers p range.1 range.2 := by
      intro e failed
      rw [processWriter, failed] at processed
      by_contra other
      simp [other] at processed
    obtain ⟨next', processed', filled⟩ := fills.writer p fills.going answered
    rw [processed, Except.ok.injEq] at processed'
    subst processed'
    intro other mem
    rcases mem_cons.mp mem with rfl | further
    · exact answered
    · exact ih filled later other further

end

end GitWarp
