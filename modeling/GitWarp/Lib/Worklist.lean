import GitWarp.Lib.OrdMap
import Mathlib.Algebra.GroupWithZero.Nat
import Mathlib.Algebra.Order.BigOperators.Group.List
import Mathlib.Algebra.Order.Group.Nat

/-!
# Worklist search

Keys lead to items and items lead to further keys. The search loads the items of each
key that it meets for the first time. If no loading fails, it ends with exactly the
items that some reachable key leads to.
-/
namespace Lib

open List

variable {K S I E : Type} [DecidableEq K] [DecidableEq S]

/-- Where the items of a key are, how to load one, and the keys it leads to. -/
structure Leads (K S I E : Type) where
  itemsOf : K → List S
  load : S → Except E I
  next : I → List K

structure Worklist (K S I : Type) where
  queue : List K
  visited : OrdSet K
  found : OrdMap S I

namespace Leads

variable (leads : Leads K S I E)

/-- Loads the items that are not found yet and queues their keys. -/
def visitItems : List S → Worklist K S I → Except E (Worklist K S I)
  | [], w => .ok w
  | s :: rest, w =>
    if w.found.has s then visitItems rest w
    else
      match leads.load s with
      | .error e => .error e
      | .ok item =>
        visitItems rest { w with
          found := w.found.set s item
          queue := w.queue ++ (leads.next item).filter fun k => !w.visited.has k }

def search : Nat → Worklist K S I → Except E (Worklist K S I)
  | 0, w => .ok w
  | fuel + 1, w =>
    match w.queue with
    | [] => .ok w
    | k :: rest =>
      if w.visited.has k then search fuel { w with queue := rest }
      else
        match leads.visitItems (leads.itemsOf k)
            { w with queue := rest, visited := w.visited.add k } with
        | .error e => .error e
        | .ok visited => search fuel visited

def start (k : K) : Worklist K S I := ⟨[k], .empty, .empty⟩

/-- The keys that the search comes to from `origin`. -/
inductive Reaches (origin : K) : K → Prop
  | origin : Reaches origin origin
  | next (k k' : K) (s : S) (item : I) (reached : Reaches origin k) (listed : s ∈ leads.itemsOf k)
      (loaded : leads.load s = .ok item) (onward : k' ∈ leads.next item) : Reaches origin k'

/-! ### What a search has done so far -/

/-- Everything met so far is reachable, and nothing that was found is forgotten. -/
structure Sound (origin : K) (w : Worklist K S I) : Prop where
  queued : ∀ k ∈ w.queue, leads.Reaches origin k
  found : ∀ s item, w.found.get s = some item →
    leads.load s = .ok item ∧ ∃ k, leads.Reaches origin k ∧ s ∈ leads.itemsOf k
  onward : ∀ s item, w.found.get s = some item → ∀ k ∈ leads.next item, k ∈ w.visited ∨ k ∈ w.queue
  begun : origin ∈ w.visited ∨ origin ∈ w.queue

def Expanded (w : Worklist K S I) : Prop :=
  ∀ k ∈ w.visited, ∀ s ∈ leads.itemsOf k, w.found.has s = true

/-- How many keys an item will queue at most. -/
def weight (s : S) : Nat :=
  match leads.load s with
  | .error _ => 0
  | .ok item => (leads.next item).length

/-- The keys that the queue holds and that the items of `all` may still add. -/
def remaining (all : List S) (w : Worklist K S I) : Nat :=
  w.queue.length + ((all.filter fun s => !w.found.has s).map leads.weight).sum

omit [DecidableEq K] in
theorem sum_weight_set {all : List S} {found : OrdMap S I} (s : S) (item : I) (mem : s ∈ all)
    (new : found.has s = false) :
    leads.weight s + ((all.filter fun s' => !(found.set s item).has s').map leads.weight).sum ≤
      ((all.filter fun s' => !found.has s').map leads.weight).sum := by
  -- finding one more item takes its weight off
  have grows : ∀ s', (!(found.set s item).has s') = (!found.has s' && decide (s ≠ s')) := by
    intro s'
    by_cases same : s = s'
    · simp [OrdMap.has, same]
    · simp [OrdMap.has, same]
  simp only [grows]
  induction all with
  | nil => cases mem
  | cons head rest ih =>
    by_cases here : s = head
    · subst here
      -- the rest may list the item again, which only helps
      have tail : ((rest.filter fun s' => !found.has s' && decide (s ≠ s')).map leads.weight).sum ≤
          ((rest.filter fun s' => !found.has s').map leads.weight).sum := by
        have sublist : (rest.filter fun s' => !found.has s' && decide (s ≠ s')).Sublist
            (rest.filter fun s' => !found.has s') := by
          apply monotone_filter_right
          intro s' both
          exact (Bool.and_eq_true_iff.mp both).1
        exact (sublist.map leads.weight).sum_le_sum fun n _ => Nat.zero_le n
      rw [filter_cons_of_neg (by simp), filter_cons_of_pos (by simp [new]), map_cons, sum_cons]
      omega
    · have inside : s ∈ rest := (mem_cons.mp mem).resolve_left here
      have later := ih inside
      by_cases old : found.has head = true
      · simpa [old, here] using later
      · have unfound : found.has head = false := Bool.eq_false_iff.mpr old
        rw [filter_cons_of_pos (by simp [unfound, here]),
          filter_cons_of_pos (by simp [unfound]), map_cons, map_cons, sum_cons,
          sum_cons]
        omega

variable {leads}

theorem visitItems_spec {all} (reached : leads.Reaches origin k)
    (listed : ∀ s ∈ items, s ∈ leads.itemsOf k)
    (loads : ∀ s ∈ items, s ∈ all ∧ ∃ item, leads.load s = .ok item) (w)
    (sound : leads.Sound origin w) :
    ∃ w', leads.visitItems items w = .ok w' ∧ leads.Sound origin w' ∧ w'.visited = w.visited ∧
      (∀ s, w.found.has s = true → w'.found.has s = true) ∧
      (∀ s ∈ items, w'.found.has s = true) ∧ leads.remaining all w' ≤ leads.remaining all w := by
  induction items generalizing w with
  | nil => exact ⟨w, rfl, sound, rfl, fun _ => id, by simp, Nat.le_refl _⟩
  | cons s rest ih =>
    have listedRest := fun s' mem => listed s' (mem_cons_of_mem s mem)
    have loadsRest := fun s' mem => loads s' (mem_cons_of_mem s mem)
    unfold visitItems
    split
    next old =>
      obtain ⟨w', ran, sound', visited, kept, all_, bound⟩ := ih listedRest loadsRest w sound
      refine ⟨w', ran, sound', visited, kept, ?_, bound⟩
      intro s' mem
      rcases mem_cons.mp mem with rfl | inside
      · exact kept s' old
      · exact all_ s' inside
    next new =>
      obtain ⟨mem, item, loaded⟩ := loads s mem_cons_self
      have absent : w.found.has s = false := Bool.eq_false_iff.mpr new
      rw [loaded]
      have here : s ∈ leads.itemsOf k := listed s mem_cons_self
      have next : leads.Sound origin { w with
          found := w.found.set s item
          queue := w.queue ++ (leads.next item).filter fun k => !w.visited.has k } := by
        constructor
        · intro k' queued
          rcases mem_append.mp queued with old | fresh
          · exact sound.queued k' old
          · exact .next k k' s item reached here loaded (mem_filter.mp fresh).1
        · exact OrdMap.forall_set ⟨loaded, k, reached, here⟩ sound.found
        · intro s' item' held k' onward
          rw [OrdMap.get_set] at held
          split at held
          · cases held
            -- a key of the new item is queued unless it was visited
            by_cases seen : k' ∈ w.visited
            · exact Or.inl seen
            · apply Or.inr
              apply mem_append_right
              exact mem_filter.mpr ⟨onward, by simp [seen]⟩
          · exact (sound.onward s' item' held k' onward).imp_right (mem_append_left _)
        · exact sound.begun.imp_right (mem_append_left _)
      obtain ⟨w', ran, sound', visited, kept, all_, bound⟩ := ih listedRest loadsRest _ next
      have keptFound : ∀ s', w.found.has s' = true → (w.found.set s item).has s' = true := by
        intro s' held
        by_cases same : s = s'
        · simp [OrdMap.has, same]
        · simpa [OrdMap.has, same] using held
      refine ⟨w', ran, sound', visited, fun s' held => kept s' (keptFound s' held), ?_, ?_⟩
      · intro s' inside
        rcases mem_cons.mp inside with rfl | later
        · exact kept s' (by simp [OrdMap.has])
        · exact all_ s' later
      · -- the item's weight pays for the keys that it queues
        have paid := leads.sum_weight_set s item mem absent
        have fits : ((leads.next item).filter fun k => !w.visited.has k).length ≤
            leads.weight s := by
          rw [weight, loaded]
          exact length_filter_le _ _
        have shorter : leads.remaining all { w with
            found := w.found.set s item
            queue := w.queue ++ (leads.next item).filter fun k => !w.visited.has k } ≤
              leads.remaining all w := by
          simp only [remaining, length_append]
          omega
        exact Nat.le_trans bound shorter

theorem search_spec {all}
    (loads : ∀ k, ∀ s ∈ leads.itemsOf k, s ∈ all ∧ ∃ item, leads.load s = .ok item) (w)
    (enough : leads.remaining all w ≤ fuel) (sound : leads.Sound origin w)
    (expanded : leads.Expanded w) :
    ∃ w', leads.search fuel w = .ok w' ∧ leads.Sound origin w' ∧ leads.Expanded w' ∧
      w'.queue = [] := by
  -- with enough fuel the search ends with an empty queue, and every step was sound
  induction fuel generalizing w with
  | zero =>
    have empty : w.queue.length = 0 := by
      simp only [remaining] at enough
      omega
    exact ⟨w, rfl, sound, expanded, eq_nil_of_length_eq_zero empty⟩
  | succ fuel ih =>
    unfold search
    split
    next empty => exact ⟨w, rfl, sound, expanded, empty⟩
    next k rest queued =>
      have reached : leads.Reaches origin k := sound.queued k (by simp [queued])
      have popped : leads.remaining all { w with queue := rest } + 1 = leads.remaining all w := by
        simp only [remaining, queued, length_cons]
        omega
      split
      next seen =>
        -- the key was expanded before
        apply ih { w with queue := rest } (by omega) _ expanded
        have known : ∀ k', k' ∈ w.visited ∨ k' ∈ w.queue → k' ∈ w.visited ∨ k' ∈ rest := by
          rintro k' (old | inside)
          · exact Or.inl old
          · rw [queued] at inside
            rcases mem_cons.mp inside with rfl | later
            · exact Or.inl ((OrdSet.has_iff _ _).mp seen)
            · exact Or.inr later
        constructor
        · exact fun k' inside => sound.queued k' (by simp [queued, inside])
        · exact sound.found
        · exact fun s item held k' onward => known k' (sound.onward s item held k' onward)
        · exact known origin sound.begun
      next new =>
        have known : ∀ k', k' ∈ w.visited ∨ k' ∈ w.queue → k' ∈ w.visited.add k ∨ k' ∈ rest := by
          rintro k' (old | inside)
          · exact Or.inl ((OrdSet.mem_add _ _).mpr (Or.inl old))
          · rw [queued] at inside
            rcases mem_cons.mp inside with rfl | later
            · exact Or.inl ((OrdSet.mem_add _ _).mpr (Or.inr rfl))
            · exact Or.inr later
        have entered : leads.Sound origin
            { w with queue := rest, visited := w.visited.add k } := by
          constructor
          · exact fun k' inside => sound.queued k' (by simp [queued, inside])
          · exact sound.found
          · exact fun s item held k' onward => known k' (sound.onward s item held k' onward)
          · exact known origin sound.begun
        obtain ⟨w', ran, sound', visited, kept, whole, bound⟩ := visitItems_spec reached (fun _ => id) (loads k) _ entered
        rw [ran]
        have smaller : leads.remaining all w' ≤ fuel := by
          have same : leads.remaining all { w with queue := rest, visited := w.visited.add k } =
            leads.remaining all { w with queue := rest } := rfl
          omega
        apply ih w' smaller sound'
        intro k' inside s listed
        rw [visited] at inside
        rcases (OrdSet.mem_add _ _).mp inside with old | rfl
        · exact kept s (expanded k' old s listed)
        · exact whole s listed

/-- The search finds exactly the items that reachable keys lead to. -/
theorem search_iff {all : List S}
    (loads : ∀ k, ∀ s ∈ leads.itemsOf k, s ∈ all ∧ ∃ item, leads.load s = .ok item) (fuel)
    (enough : 1 + (all.map leads.weight).sum ≤ fuel) :
    ∃ w, leads.search fuel (start origin) = .ok w ∧ ∀ s item, w.found.get s = some item ↔
      leads.load s = .ok item ∧ ∃ k, leads.Reaches origin k ∧ s ∈ leads.itemsOf k := by
  have sound : leads.Sound origin (start origin) := by
    constructor
    · intro k queued
      rw [mem_singleton.mp queued]
      exact .origin
    · exact fun s item held => by cases held
    · exact fun s item held => by cases held
    · exact Or.inr mem_cons_self
  have bound : leads.remaining all (start origin) ≤ fuel := by
    have unfound : all.filter (fun s => !(start origin : Worklist K S I).found.has s) = all :=
      filter_eq_self.mpr fun s _ => rfl
    simp only [remaining, unfound]
    exact enough
  have expanded : leads.Expanded (start origin) := by
    intro k inside
    cases inside
  obtain ⟨w, ran, sound', expanded', empty⟩ := search_spec loads _ bound sound
    expanded
  refine ⟨w, ran, ?_⟩
  -- with an empty queue the visited keys are closed
  have visited : ∀ k, leads.Reaches origin k → k ∈ w.visited := by
    intro k reached
    induction reached with
    | origin => simpa [empty] using sound'.begun
    | next k k' s item _ listed loaded onward ih =>
      obtain ⟨item', held⟩ := Option.isSome_iff_exists.mp (expanded' k ih s listed)
      have same := (sound'.found s item' held).1
      rw [loaded] at same
      cases same
      simpa [empty] using sound'.onward s item held k' onward
  intro s item
  constructor
  · exact sound'.found s item
  · rintro ⟨loaded, k, reached, listed⟩
    obtain ⟨item', held⟩ := Option.isSome_iff_exists.mp (expanded' k (visited k reached) s listed)
    have same := (sound'.found s item' held).1
    rw [loaded] at same
    cases same
    exact held

end Leads
end Lib
