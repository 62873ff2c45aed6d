import GitWarp.Sync.SyncAuthService
import Mathlib.Algebra.Order.Ring.Rat
import Mathlib.Tactic.Linarith

/-!
# The rate limit over a run

A bucket is refilled by the time since it was last moved forward, and a clock
that goes back moves nothing. So the time refilled for a key never counts twice,
and what is accepted is paid by the capacity and the span of the readings. The
buckets are never evicted.
-/
namespace GitWarp

open Js Lib List

namespace SyncRateLimiter

def invalidConfig (message : JsString) : Failure :=
  ⟨.syncError, lit "E_SYNC_RATE_LIMIT_CONFIG", message⟩

/-- The constructor, with a clock whose readings are given to the calls. -/
def create (capacity refillTokensPerSecond : Rat) : Except Failure SyncRateLimiter :=
  if ¬ (capacity.isInt = true ∧ 0 < capacity) then
    .error (invalidConfig (lit "rateLimit.capacity must be a positive integer"))
  else if refillTokensPerSecond ≤ 0 then
    .error (invalidConfig (lit "rateLimit.refillTokensPerSecond must be a positive number"))
  else .ok ⟨capacity.num.toNat, refillTokensPerSecond, .empty⟩

def consumeAll (limiter : SyncRateLimiter) : List (JsString × Rat) → SyncRateLimiter
  | [] => limiter
  | (key, nowMs) :: rest => (limiter.tryConsume key nowMs).2.consumeAll rest

def acceptedFor (limiter : SyncRateLimiter) (keyId : JsString) : List (JsString × Rat) → Nat
  | [] => 0
  | (key, nowMs) :: rest =>
    let (allowed, next) := limiter.tryConsume key nowMs
    (if allowed = true ∧ key = keyId then 1 else 0) + next.acceptedFor keyId rest

def readingSpan : List Rat → Rat
  | [] => 0
  | first :: rest => rest.foldl max first - rest.foldl min first

theorem foldl_min_le_max (rest : List Rat) (low high reading)
    (among : low ≤ reading ∧ reading ≤ high ∨ reading ∈ rest) :
    rest.foldl min low ≤ reading ∧ reading ≤ rest.foldl max high := by
  induction rest generalizing low high with
  | nil =>
    rcases among with between | listed
    · exact between
    · cases listed
  | cons first rest ih =>
    apply ih
    rcases among with between | listed
    · exact Or.inl ⟨le_trans (min_le_left _ _) between.1, le_trans between.2 (le_max_left _ _)⟩
    · rcases mem_cons.mp listed with rfl | later
      · exact Or.inl ⟨min_le_right _ _, le_max_right _ _⟩
      · exact Or.inr later

theorem exists_readingSpan :
    ∃ low high, readingSpan readings = high - low ∧ low ≤ high ∧
      ∀ reading ∈ readings, low ≤ reading ∧ reading ≤ high := by
  cases readings with
  | nil => exact ⟨0, 0, by simp [readingSpan], le_refl 0, fun _ listed => nomatch listed⟩
  | cons first rest =>
    have own := foldl_min_le_max rest first first first (Or.inl ⟨le_refl _, le_refl _⟩)
    refine ⟨_, _, rfl, le_trans own.1 own.2, fun reading listed => ?_⟩
    rcases mem_cons.mp listed with rfl | later
    · exact own
    · exact foldl_min_le_max rest first first reading (Or.inr later)

/-! ### One bucket -/

/-- The bucket holds between no token and the capacity. -/
def Holds (limiter : SyncRateLimiter) (state : TokenBucketState) : Prop :=
  0 ≤ state.tokens ∧ state.tokens ≤ limiter.capacity

section Bucket

variable (limiter : SyncRateLimiter) (rate : 0 < limiter.refillTokensPerSecond)
include rate

theorem refreshedBucket_spec
    (holds : limiter.Holds state) (earlier : state.updatedAtMs ≤ high) (now : nowMs ≤ high) :
    let refreshed := limiter.refreshedBucket state nowMs
    limiter.Holds refreshed ∧ refreshed.updatedAtMs ≤ high ∧
      refreshed.tokens + limiter.refillTokensPerSecond / 1000 * (high - refreshed.updatedAtMs) ≤
        state.tokens + limiter.refillTokensPerSecond / 1000 * (high - state.updatedAtMs) := by
  -- the tokens that are added are paid by the time the bucket moves forward
  intro refreshed
  by_cases still : nowMs - state.updatedAtMs ≤ 0
  · have kept : refreshed = state := by
      simp only [refreshed, refreshedBucket, still, if_true, min_eq_right holds.2]
    rw [kept]
    exact ⟨holds, earlier, le_refl _⟩
  · have moved : refreshed = ⟨min limiter.capacity (state.tokens +
        (nowMs - state.updatedAtMs) / 1000 * limiter.refillTokensPerSecond), nowMs⟩ := by
      simp only [refreshed, refreshedBucket, still, if_false]
    have refill : 0 ≤ (nowMs - state.updatedAtMs) / 1000 * limiter.refillTokensPerSecond :=
      mul_nonneg (div_nonneg (by linarith) (by norm_num)) rate.le
    have room : (0 : Rat) ≤ limiter.capacity := le_trans holds.1 holds.2
    rw [moved]
    refine ⟨⟨le_min room (by linarith [holds.1]), min_le_left _ _⟩, now, ?_⟩
    have paid := min_le_right (limiter.capacity : Rat) (state.tokens +
      (nowMs - state.updatedAtMs) / 1000 * limiter.refillTokensPerSecond)
    -- the refill and the time that is left together are the time that was left before
    have whole : (nowMs - state.updatedAtMs) / 1000 * limiter.refillTokensPerSecond +
        limiter.refillTokensPerSecond / 1000 * (high - nowMs) =
        limiter.refillTokensPerSecond / 1000 * (high - state.updatedAtMs) := by ring
    dsimp only
    linarith

theorem tryConsume_spec (state)
    (current : (limiter.buckets.get key).getD ⟨limiter.capacity, nowMs⟩ = state)
    (holds : limiter.Holds state) (earlier : state.updatedAtMs ≤ high) (now : nowMs ≤ high) :
    ∃ after, (limiter.tryConsume key nowMs).2 =
        { limiter with buckets := limiter.buckets.set key after } ∧
      limiter.Holds after ∧ after.updatedAtMs ≤ high ∧
      (if (limiter.tryConsume key nowMs).1 then 1 else 0) + (after.tokens +
          limiter.refillTokensPerSecond / 1000 * (high - after.updatedAtMs)) ≤
        state.tokens + limiter.refillTokensPerSecond / 1000 * (high - state.updatedAtMs) := by
  obtain ⟨full, before, paid⟩ :=
    limiter.refreshedBucket_spec rate holds earlier now
  rw [tryConsume, current]
  by_cases empty : (limiter.refreshedBucket state nowMs).tokens < 1
  · simp only [empty, if_true]
    exact ⟨_, rfl, full, before, by simpa using paid⟩
  · simp only [empty, if_false]
    have one : 1 ≤ (limiter.refreshedBucket state nowMs).tokens := le_of_not_gt empty
    refine ⟨_, rfl, ⟨by dsimp only; linarith, by dsimp only; linarith [full.2]⟩, before, ?_⟩
    simp only [if_true]
    linarith

end Bucket

/-! ### A whole run -/

/-- Every bucket holds a proper count, and was moved to a reading of the clock. -/
structure Running (limiter : SyncRateLimiter) (high : Rat) : Prop where
  rate : 0 < limiter.refillTokensPerSecond
  holds : ∀ key state, limiter.buckets.get key = some state → limiter.Holds state
  earlier : ∀ key state, limiter.buckets.get key = some state → state.updatedAtMs ≤ high

variable {limiter : SyncRateLimiter} {high : Rat}

theorem Running.current (running : limiter.Running high) (now : nowMs ≤ high) :
    limiter.Holds ((limiter.buckets.get key).getD ⟨limiter.capacity, nowMs⟩) ∧
      ((limiter.buckets.get key).getD ⟨limiter.capacity, nowMs⟩).updatedAtMs ≤ high := by
  cases found : limiter.buckets.get key with
  | none => exact ⟨⟨Nat.cast_nonneg _, le_refl _⟩, now⟩
  | some state => exact ⟨running.holds key state found, running.earlier key state found⟩

theorem Running.set {after} (running : limiter.Running high) (holds : limiter.Holds after)
    (earlier : after.updatedAtMs ≤ high) :
    ({ limiter with buckets := limiter.buckets.set key after } : SyncRateLimiter).Running high where
  rate := running.rate
  holds := OrdMap.forall_set holds running.holds
  earlier := OrdMap.forall_set earlier running.earlier

/-- What a key is still granted: its tokens and the time left, or everything. -/
def credit (limiter : SyncRateLimiter) (keyId : JsString) (low high : Rat) : Rat :=
  match limiter.buckets.get keyId with
  | some state => state.tokens + limiter.refillTokensPerSecond / 1000 * (high - state.updatedAtMs)
  | none => limiter.capacity + limiter.refillTokensPerSecond / 1000 * (high - low)

theorem Running.run (running : limiter.Running high) (keyId) (ordered : low ≤ high) (calls)
    (within : ∀ call ∈ calls, low ≤ call.2 ∧ call.2 ≤ high) :
    (limiter.acceptedFor keyId calls : Rat) ≤ limiter.credit keyId low high ∧
      ∀ key state, (limiter.consumeAll calls).buckets.get key = some state →
        limiter.Holds state := by
  have perMs : 0 ≤ limiter.refillTokensPerSecond / 1000 := div_nonneg running.rate.le (by norm_num)
  induction calls generalizing limiter with
  | nil =>
    refine ⟨?_, running.holds⟩
    rw [acceptedFor, credit, Nat.cast_zero]
    cases found : limiter.buckets.get keyId with
    | none => exact add_nonneg (Nat.cast_nonneg _) (mul_nonneg perMs (sub_nonneg.mpr ordered))
    | some state =>
      exact add_nonneg (running.holds keyId state found).1
        (mul_nonneg perMs (sub_nonneg.mpr (running.earlier keyId state found)))
  | cons call rest ih =>
    obtain ⟨key, nowMs⟩ := call
    obtain ⟨reached, now⟩ := within (key, nowMs) mem_cons_self
    obtain ⟨holds, earlier⟩ := running.current now
    obtain ⟨after, left, kept, moved, paid⟩ :=
      limiter.tryConsume_spec running.rate _ rfl holds earlier now
    obtain ⟨bound, stored⟩ := ih (running.set kept moved)
      (forall_mem_cons.mp within).2 perMs
    rw [acceptedFor, consumeAll]
    dsimp only
    rw [left]
    refine ⟨?_, stored⟩
    rw [Nat.cast_add]
    by_cases same : key = keyId
    · -- a call of the key is paid by its own bucket, which starts full at its first reading
      subst same
      have grant : (((if (limiter.tryConsume key nowMs).1 = true ∧ key = key then 1 else 0 : Nat)) :
          Rat) = if (limiter.tryConsume key nowMs).1 then 1 else 0 := by simp
      rw [credit, OrdMap.get_set, if_pos rfl] at bound
      rw [grant, credit]
      cases found : limiter.buckets.get key with
      | none =>
        simp only [found, Option.getD_none] at paid
        have later : limiter.refillTokensPerSecond / 1000 * (high - nowMs) ≤
            limiter.refillTokensPerSecond / 1000 * (high - low) :=
          mul_le_mul_of_nonneg_left (by linarith) perMs
        dsimp only at bound ⊢
        linarith
      | some state =>
        simp only [found, Option.getD_some] at paid
        dsimp only at bound ⊢
        linarith
    · rw [credit, OrdMap.get_set, if_neg same] at bound
      simpa [same, credit] using bound

end SyncRateLimiter

open SyncRateLimiter in
/-- The accepted requests of a key are paid by the capacity and the span of the clock, and no
bucket ever holds less than nothing or more than the capacity. -/
theorem rate_limit_bounded (capacity refillTokensPerSecond : Rat) (limiter : SyncRateLimiter)
    (made : create capacity refillTokensPerSecond = .ok limiter) (calls : List (JsString × Rat))
    (keyId : JsString) :
    (limiter.acceptedFor keyId calls : Rat) ≤
        capacity + refillTokensPerSecond / 1000 * readingSpan (calls.map Prod.snd) ∧
      ∀ key state, (limiter.consumeAll calls).buckets.get key = some state →
        0 ≤ state.tokens ∧ state.tokens ≤ capacity := by
  rw [create] at made
  split at made
  · cases made
  next integer =>
    split at made
    · cases made
    next rate =>
      cases made
      rw [not_not] at integer
      obtain ⟨low, high, span, ordered, within⟩ := exists_readingSpan
      have whole : (capacity.num.toNat : Rat) = capacity := by
        have above := Rat.num_pos.mpr integer.2
        have back : ((capacity.num.toNat : Int) : Rat) = capacity := by
          rw [Int.toNat_of_nonneg above.le]
          exact Rat.coe_int_num_of_den_eq_one (by simpa [Rat.isInt] using integer.1)
        exact_mod_cast back
      have running : (⟨capacity.num.toNat, refillTokensPerSecond, .empty⟩ :
          SyncRateLimiter).Running high :=
        ⟨lt_of_not_ge rate, fun _ _ found => (nomatch found), fun _ _ found => nomatch found⟩
      have bounds := running.run keyId ordered calls
        fun call member => within call.2 (mem_map_of_mem member)
      simp only [credit, Holds, whole, OrdMap.get_empty] at bounds
      rw [span]
      exact bounds

/-- Three calls within a second against a bucket of two tokens that gains one a second. -/
theorem rate_limit_bounded_three :
    ∃ limiter, SyncRateLimiter.create 2 1 = .ok limiter ∧
      (limiter.acceptedFor (lit "k") [(lit "k", 0), (lit "k", 500), (lit "k", -100)] : Rat) ≤
        2 + 1 / 1000 * SyncRateLimiter.readingSpan [0, 500, -100] :=
  ⟨_, rfl, (rate_limit_bounded 2 1 _ rfl
    [(lit "k", 0), (lit "k", 500), (lit "k", -100)] (lit "k")).1⟩

/-! ### Keys apart -/

namespace SyncRateLimiter

/-- Two limiters treat a key alike. -/
structure SameFor (keyId : JsString) (a b : SyncRateLimiter) : Prop where
  capacity : a.capacity = b.capacity
  rate : a.refillTokensPerSecond = b.refillTokensPerSecond
  bucket : a.buckets.get keyId = b.buckets.get keyId

variable {a b : SyncRateLimiter}

theorem SameFor.tryConsume (same : SameFor keyId a b) (nowMs) :
    (a.tryConsume keyId nowMs).1 = (b.tryConsume keyId nowMs).1 ∧
      SameFor keyId (a.tryConsume keyId nowMs).2 (b.tryConsume keyId nowMs).2 := by
  obtain ⟨capacity, rate, bucket⟩ := same
  have refreshed : a.refreshedBucket = b.refreshedBucket := by
    funext state now
    rw [refreshedBucket, refreshedBucket, capacity, rate]
  simp only [SyncRateLimiter.tryConsume, capacity, bucket, refreshed]
  split <;> exact ⟨rfl, rfl, rate, by simp [OrdMap.get_set]⟩

theorem SameFor.skip (same : SameFor keyId a b) (other : key ≠ keyId) (nowMs) :
    SameFor keyId (a.tryConsume key nowMs).2 b := by
  simp only [SyncRateLimiter.tryConsume]
  split <;> exact ⟨same.capacity, same.rate, by rw [OrdMap.get_set, if_neg other, same.bucket]⟩

theorem SameFor.run (same : SameFor keyId a b) (calls) :
    let own := calls.filter fun call => call.1 = keyId
    a.acceptedFor keyId calls = b.acceptedFor keyId own ∧
      SameFor keyId (a.consumeAll calls) (b.consumeAll own) := by
  induction calls generalizing a b with
  | nil => exact ⟨rfl, same⟩
  | cons call rest ih =>
    obtain ⟨key, nowMs⟩ := call
    by_cases mine : key = keyId
    · subst mine
      obtain ⟨answer, next⟩ := same.tryConsume nowMs
      obtain ⟨accepted, last⟩ := ih next
      simpa [acceptedFor, consumeAll, answer, accepted] using last
    · obtain ⟨accepted, last⟩ := ih (same.skip mine nowMs)
      simpa [acceptedFor, consumeAll, mine, accepted] using last

end SyncRateLimiter

end GitWarp
