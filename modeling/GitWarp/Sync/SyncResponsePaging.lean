import GitWarp.Js.Digits
import GitWarp.Sync.Exchange
import Mathlib.Algebra.Order.Ring.Unbundled.Rat

/-!
# Pages of a response, and the writers left out of it

A cursor is a position in the patches of the whole answer, which are loaded anew for
every page. The writers that a response skips are those whose requested tip is not
behind the responder's, which is too many where the requester is strictly ahead.
-/
namespace GitWarp

open Js Lib List

variable {V : Type}

/-! ### Page requests -/

structure SyncRequestPage where
  maxPatches : Rat
  cursor : Option JsString

def invalidPage (message : JsString) : Failure :=
  ⟨.syncError, lit "E_SYNC_PAGING_INVALID", message⟩

def requirePositiveMaxPatches (value : Rat) : Except Failure Nat :=
  if value.isInt = true ∧ 0 < value then .ok value.num.toNat
  else .error (invalidPage (lit "Sync response page maxPatches must be a positive integer"))

/-- The text has to be the one that its own number is written as. -/
def cursorOffsetFor : Option JsString → Except Failure Nat
  | none => .ok 0
  | some cursor =>
    match parseInt cursor with
    | some (.ofNat cursorOffset) =>
      if numberText cursorOffset = cursor then .ok cursorOffset
      else .error (invalidPage
        (lit "Sync response page cursor must be a non-negative integer string"))
    | _ => .error (invalidPage
        (lit "Sync response page cursor must be a non-negative integer string"))

def normalizeSyncPageRequest : Option SyncRequestPage → Except Failure SyncPageRequest
  | none => .ok .unbounded
  | some page => do
    let maxPatches ← requirePositiveMaxPatches page.maxPatches
    let cursorOffset ← cursorOffsetFor page.cursor
    pure ⟨some maxPatches, cursorOffset⟩

/-- `processSyncRequest` on a request as it arrives, with its page as it was written. -/
def processPagedRequest (collate : List (JsString × WriterRange) → List (JsString × WriterRange))
    (frontier : Frontier) (page : Option SyncRequestPage) (localFrontier : Frontier)
    (p : Persistence V) : Except Failure (SyncResponse V) := do
  let pageRequest ← normalizeSyncPageRequest page
  processSyncRequest collate ⟨frontier, pageRequest⟩ localFrontier p

/-- Asking with the cursor of each response until there is no more. -/
inductive FollowsCursors (answer : Option JsString → Except Failure (SyncResponse V)) :
    Option JsString → List (SyncResponse V) → Prop
  | last (cursor : Option JsString) (response : SyncResponse V) :
    answer cursor = .ok response → response.hasMore = false →
    FollowsCursors answer cursor [response]
  | more (cursor : Option JsString) (response : SyncResponse V) (rest : List (SyncResponse V)) :
    answer cursor = .ok response → response.hasMore = true →
    FollowsCursors answer response.cursor rest → FollowsCursors answer cursor (response :: rest)

theorem FollowsCursors.unique {answer} {pages others : List (SyncResponse V)}
    (follows : FollowsCursors answer cursor pages) (other : FollowsCursors answer cursor others) :
    others = pages := by
  induction follows generalizing others with
  | last cursor response answered done =>
    cases other with
    | last _ again answered' done' => simpa [answered] using answered'.symm
    | more _ again _ answered' going _ =>
      cases answered.symm.trans answered'
      rw [done] at going
      cases going
  | more cursor response rest answered going _ ih =>
    cases other with
    | last _ again answered' done' =>
      cases answered.symm.trans answered'
      rw [going] at done'
      cases done'
    | more _ again rest' answered' _ further =>
      cases answered.symm.trans answered'
      rw [ih further]

theorem cursorOffsetFor_numberText (n) (small : n < 10 ^ 21) :
    cursorOffsetFor (some (numberText n)) = .ok n := by
  have text : numberText n = decimalText n := by rw [numberText, if_pos small]
  rw [cursorOffsetFor, text, parseInt_decimalText]
  exact if_pos text

section Answer

variable (collate : List (JsString × WriterRange) → List (JsString × WriterRange))

/-- The ranges of an answer, in the order in which the loop takes them. -/
def answerRanges (frontier localFrontier : Frontier) : List (JsString × WriterRange) :=
  collate (computeSyncDelta (objectToFrontier frontier) localFrontier).needFromRemote.entries

variable (frontier localFrontier : Frontier) (p : Persistence V)

theorem processPagedRequest_ok (page) (accepted : normalizeSyncPageRequest page = .ok pageRequest)
    (answers : ∀ range ∈ answerRanges collate frontier localFrontier, Answers p range.1 range.2) :
    ∃ progress, processPagedRequest collate frontier page localFrontier p = .ok
        { frontier := frontierToObject localFrontier
          patches := progress.patches
          skippedWriters := progress.skippedWriters
          cursor := if progress.hasMore then progress.cursor else none
          hasMore := progress.hasMore } ∧
      Fills pageRequest (answerPatches p (answerRanges collate frontier localFrontier))
        (((answerRanges collate frontier localFrontier).filter (skipsWriter p)).map Prod.fst)
        progress := by
  obtain ⟨progress, finished, filled⟩ := Fills.start.ranges p _ answers
  refine ⟨progress, ?_, filled⟩
  rw [answerRanges] at finished
  rw [processPagedRequest, accepted]
  simp only [bind, Except.bind, processSyncRequest, finished]
  rfl

theorem processPagedRequest_unpaged
    (unpaged : processPagedRequest collate frontier none localFrontier p = .ok whole) :
    (∀ range ∈ answerRanges collate frontier localFrontier, Answers p range.1 range.2) ∧
      whole.patches = answerPatches p (answerRanges collate frontier localFrontier) ∧
      whole.skippedWriters.map SkippedWriterEntry.writerId =
        ((answerRanges collate frontier localFrontier).filter (skipsWriter p)).map Prod.fst := by
  have answers : ∀ range ∈ answerRanges collate frontier localFrontier,
      Answers p range.1 range.2 := by
    obtain ⟨pageRequest, normalized, processed⟩ := bind_eq_ok.mp unpaged
    cases normalized
    obtain ⟨progress, finished, -⟩ := bind_eq_ok.mp processed
    exact answers_of_processRanges p (.start) finished
  obtain ⟨progress, processed, filled⟩ :=
    processPagedRequest_ok collate frontier localFrontier p none rfl answers
  cases unpaged.symm.trans processed
  exact ⟨answers, filled.patches, (filled.seen filled.going).2⟩

theorem exists_followsCursors (page : SyncRequestPage)
    (accepted : requirePositiveMaxPatches page.maxPatches = .ok budget) (positive : 0 < budget)
    (answers : ∀ range ∈ answerRanges collate frontier localFrontier, Answers p range.1 range.2)
    (array : (answerPatches p (answerRanges collate frontier localFrontier)).length < 2 ^ 32)
    (cursor) (offset) (points : cursorOffsetFor cursor = .ok offset) :
    ∃ pages, FollowsCursors (fun cursor => processPagedRequest collate frontier
        (some { page with cursor := cursor }) localFrontier p) cursor pages ∧
      pages.flatMap SyncResponse.patches =
        (answerPatches p (answerRanges collate frontier localFrontier)).drop offset := by
  -- from a cursor on, the pages show the patches from its position on
  generalize left : (answerPatches p (answerRanges collate frontier localFrontier)).length -
    offset = count
  induction count using Nat.strongRecOn generalizing cursor offset with
  | ind count ih =>
    have normalized : normalizeSyncPageRequest (some { page with cursor := cursor }) =
        .ok ⟨some budget, offset⟩ := by
      simp only [normalizeSyncPageRequest, accepted, points, bind, Except.bind]
      rfl
    obtain ⟨progress, processed, filled⟩ := processPagedRequest_ok collate frontier localFrontier p
      _ normalized answers
    have shown := filled.patches
    simp only [SyncPageRequest.slice] at shown
    cases more : progress.hasMore with
    | false =>
      -- nothing is left behind the budget
      have all : ¬ SyncPageRequest.Exceeded ⟨some budget, offset⟩
          (answerPatches p (answerRanges collate frontier localFrontier)).length := by
        rw [← filled.hasMore, more]
        exact Bool.false_ne_true
      refine ⟨_, .last cursor _ processed more, ?_⟩
      simp only [flatMap_singleton, shown]
      apply take_of_length_le
      rw [length_drop]
      by_contra exceeded
      exact all ⟨budget, rfl, by dsimp only; omega⟩
    | true =>
      obtain ⟨_, limited, exceeded⟩ := filled.hasMore.mp more
      cases limited
      -- the cursor is the position behind the page, which the next request reads back
      have next := filled.cursor budget rfl more
      have read := cursorOffsetFor_numberText (offset + budget) (by
        dsimp only at exceeded
        omega)
      obtain ⟨pages, follows, rest⟩ := ih _ (by dsimp only at exceeded; omega) _ _ read rfl
      refine ⟨_, .more cursor _ pages processed more ?_, ?_⟩
      · simpa only [more, if_true, next] using follows
      · rw [flatMap_cons, rest, shown, ← drop_drop, take_append_drop]

end Answer

/-- The pages of an answer are determined by the cursors, end, and together are the answer. -/
theorem sync_paging_lossless
    (collate : List (JsString × WriterRange) → List (JsString × WriterRange))
    (frontier localFrontier : Frontier) (p : Persistence V) (maxPatches : Rat) (budget : Nat)
    (accepted : requirePositiveMaxPatches maxPatches = .ok budget) (whole : SyncResponse V)
    (unpaged : processPagedRequest collate frontier none localFrontier p = .ok whole)
    (array : whole.patches.length < 2 ^ 32) :
    ∃ pages, FollowsCursors (fun cursor => processPagedRequest collate frontier
        (some ⟨maxPatches, cursor⟩) localFrontier p) none pages ∧
      (∀ others, FollowsCursors (fun cursor => processPagedRequest collate frontier
        (some ⟨maxPatches, cursor⟩) localFrontier p) none others → others = pages) ∧
      pages.flatMap SyncResponse.patches = whole.patches := by
  obtain ⟨answers, patches, -⟩ :=
    processPagedRequest_unpaged collate frontier localFrontier p unpaged
  have positive : 0 < budget := by
    rw [requirePositiveMaxPatches] at accepted
    split at accepted
    next integer =>
      cases accepted
      have above := Rat.num_pos.mpr integer.2
      omega
    · cases accepted
  rw [patches] at array ⊢
  obtain ⟨pages, follows, all⟩ := exists_followsCursors collate frontier localFrontier p
    ⟨maxPatches, none⟩ accepted positive answers array none 0 rfl
  exact ⟨pages, follows, fun others other => follows.unique other, all⟩

/-- A requester without a frontier reads a chain of two patches, one a page. -/
theorem sync_paging_lossless_two :
    ∃ pages, FollowsCursors (fun cursor => processPagedRequest id .empty (some ⟨1, cursor⟩)
        (writerReplica false true false).frontier (writerReplica false true false).persistence)
          none pages ∧
      (∀ others, FollowsCursors (fun cursor => processPagedRequest id .empty (some ⟨1, cursor⟩)
        (writerReplica false true false).frontier (writerReplica false true false).persistence)
          none others → others = pages) ∧
      pages.flatMap (fun page => page.patches.map (fun item => item.entry.sha)) =
        [lit "aaaa", lit "cccc"] := by
  obtain ⟨pages, follows, unique, all⟩ := sync_paging_lossless id .empty
    (writerReplica false true false).frontier (writerReplica false true false).persistence 1 1
    (by decide) _ rfl (by decide)
  refine ⟨pages, follows, unique, ?_⟩
  have shas := congrArg (List.map fun item => item.entry.sha) all
  rw [map_flatMap] at shas
  rw [shas]
  decide

/-! ### Skipped writers -/

/-- The writer is known to both, and neither tip is behind the other on the writer's chain, as
the repository of the later tip has it. -/
def Incomparable (requester responder : CommitStore V) (frontier localFrontier : Frontier)
    (w : JsString) : Prop :=
  ∃ x y, frontier.get w = some x ∧ localFrontier.get w = some y ∧
    x ∉ (responder.chain y).map PatchEntry.sha ∧ y ∉ (requester.chain x).map PatchEntry.sha

/-- The writer is known to both, and the requester's tip is strictly ahead. -/
def StrictlyAhead (requester responder : CommitStore V) (frontier localFrontier : Frontier)
    (w : JsString) : Prop :=
  ∃ x y, frontier.get w = some x ∧ localFrontier.get w = some y ∧
    x ∉ (responder.chain y).map PatchEntry.sha ∧ y ∈ (requester.chain x).map PatchEntry.sha

section Skipped

variable (collate : List (JsString × WriterRange) → List (JsString × WriterRange))
  (sorts : ∀ ranges, (collate ranges).Perm ranges) (requester : CommitStore V)
  (p : Persistence V) (validA : requester.Valid) (validB : p.store.Valid)
  (frontier localFrontier : Frontier)
  (asked : ∀ w x, frontier.get w = some x → requester.has x = true)
  (held : ∀ w y, localFrontier.get w = some y → p.store.has y = true)
  (response : SyncResponse V)
  (processed : processPagedRequest collate frontier none localFrontier p = .ok response)
include sorts validA validB asked held processed

theorem mem_skippedWriters (w) :
    w ∈ response.skippedWriters.map SkippedWriterEntry.writerId ↔
      ∃ x y, frontier.get w = some x ∧ localFrontier.get w = some y ∧
        x ∉ (p.store.chain y).map PatchEntry.sha := by
  -- a writer is skipped when its requested tip is not behind the responder's
  obtain ⟨answers, -, skipped⟩ :=
    processPagedRequest_unpaged collate frontier localFrontier p processed
  have listed : ∀ range, (w, range) ∈ answerRanges collate frontier localFrontier ↔
      (match localFrontier.get w with
        | none => none
        | some y => if frontier.get w = some y then none else some ⟨frontier.get w, y⟩) =
        some range := by
    intro range
    rw [answerRanges, (sorts _).mem_iff, OrdMap.mem_entries_iff, get_needFromRemote,
      get_objectToFrontier] <;> rfl
  rw [skipped, mem_map]
  simp only [mem_filter, Prod.exists, exists_and_right, exists_eq_right, listed]
  constructor
  · rintro ⟨range, need, skips⟩
    have answered := answers (w, range) ((listed range).mpr need)
    cases theirs : localFrontier.get w with
    | none => simp [theirs] at need
    | some y =>
      have tipped := validB.named (held w y theirs)
      cases mine : frontier.get w with
      | none =>
        simp only [theirs, mine, reduceCtorEq, if_false, Option.some.injEq] at need
        subst need
        simp [skipsWriter, loadWriterPatches_new p tipped] at skips
      | some x =>
        simp only [theirs, mine, Option.some.injEq] at need
        split at need
        · cases need
        next apart =>
          cases need
          refine ⟨x, y, rfl, rfl, fun inside => ?_⟩
          have known := (answers_known_iff p (validA.named (asked w x mine)) tipped apart
            (held w y theirs)).mp answered
          rw [skipsWriter, loadWriterPatches_known p (validA.named (asked w x mine)) tipped
            apart (held w y theirs), if_neg (fun both => by simp [known both.1] at both),
            if_pos inside] at skips
          cases skips
  · rintro ⟨x, y, mine, theirs, outside⟩
    have stored := held w y theirs
    have tipped := validB.named stored
    have apart : x ≠ y := by
      rintro rfl
      apply outside
      rw [CommitStore.chain, CommitStore.loadPatchChainFromSha, if_neg tipped]
      exact mem_walkBack_self p.store.commits (of_decide_eq_true stored)
    have need : (if frontier.get w = some y then none
        else some (⟨frontier.get w, y⟩ : WriterRange)) = some ⟨some x, y⟩ := by
      simp [mine, apart]
    refine ⟨⟨some x, y⟩, by simpa only [theirs] using need, ?_⟩
    rw [skipsWriter, loadWriterPatches_known p (validA.named (asked w x mine)) tipped apart
      stored, if_neg outside]
    split
    next found =>
      split at found
      · cases found
      · split at found <;> cases found
    · rfl

end Skipped

end GitWarp
