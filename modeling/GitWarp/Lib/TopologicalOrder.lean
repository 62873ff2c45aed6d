import Mathlib.Logic.Relation
import Mathlib.Order.WellFounded
import Mathlib.Data.Finite.Defs
import Mathlib.Data.Set.Finite.Basic
import Mathlib.Data.List.Lex
import Mathlib.Data.Finset.Dedup
import Mathlib.Order.RelClasses

/-!
# Topological orders

A topological order lists the nodes of a graph so that each comes after the nodes that lead to
it. When each node listed is the least of those that may come next, the order is the
lexicographically least one. Where nothing may come next although nodes are left, there is a
cycle.
-/
namespace Lib

open List

open Relation (TransGen ReflTransGen)

variable {A : Type} (node : A → Prop) (r : A → A → Prop)

/-- Every node is listed once, after the nodes that lead to it. -/
structure Topological (order : List A) : Prop where
  nodup : order.Nodup
  mem : ∀ x, x ∈ order ↔ node x
  after : ∀ before y rest, order = before ++ y :: rest → ∀ x, node x → r x y → x ∈ before

/-- A node that may come next. -/
def Available (before : List A) (y : A) : Prop :=
  node y ∧ y ∉ before ∧ ∀ x, node x → r x y → x ∈ before

/-- Each node listed is the least that may come next. -/
def Greedy [LinearOrder A] (order : List A) : Prop :=
  ∀ before y rest, order = before ++ y :: rest →
    Available node r before y ∧ ∀ z, Available node r before z → y ≤ z

variable {node r}

variable {order : List A}

theorem Greedy.nodup [LinearOrder A] (greedy : Greedy node r order) : order.Nodup := by
  induction order using List.reverseRecOn with
  | nil => exact nodup_nil
  | append_singleton before y ih =>
    apply nodup_append.mpr
    refine ⟨ih ?_, nodup_singleton y, ?_⟩
    · intro first z rest split
      exact greedy first z (rest ++ [y]) (by rw [split]; simp)
    · intro x mem z only same
      rw [mem_singleton] at only
      exact (greedy before y [] rfl).1.2.1 (only ▸ same ▸ mem)

/-- What holds of every place of a list, after one more entry. -/
theorem snoc_splits {P : List A → A → Prop} {y}
    (each : ∀ before y rest, order = before ++ y :: rest → P before y) (last : P order y) :
    ∀ before z rest, order ++ [y] = before ++ z :: rest → P before z := by
  intro before z rest split
  rcases eq_nil_or_concat rest with rfl | ⟨rest', last, rfl⟩
  · obtain ⟨rfl, only⟩ := append_inj' split rfl
    obtain rfl : y = z := by simpa using only
    exact last
  · have split' : order ++ [y] = (before ++ z :: rest') ++ [last] := by simpa using split
    obtain ⟨earlier, -⟩ := append_inj' split' rfl
    exact each before z rest' earlier

theorem Greedy.snoc [LinearOrder A] (greedy : Greedy node r order) {y}
    (next : Available node r order y) (least : ∀ z, Available node r order z → y ≤ z) :
    Greedy node r (order ++ [y]) :=
  snoc_splits greedy ⟨next, least⟩

theorem Greedy.topological [LinearOrder A] (greedy : Greedy node r order)
    (mem : ∀ x, x ∈ order ↔ node x) : Topological node r order :=
  ⟨greedy.nodup, mem, fun before y rest split => (greedy before y rest split).1.2.2⟩

theorem Greedy.take_eq [LinearOrder A] {order'} (greedy : Greedy node r order)
    (other : Greedy node r order') (length : order.length ≤ order'.length) :
    order = order'.take order.length := by
  induction order using List.reverseRecOn with
  | nil => rfl
  | append_singleton before y ih =>
    have earlier : Greedy node r before := by
      intro front z rest split
      exact greedy front z (rest ++ [y]) (by rw [split]; simp)
    rw [length_append, length_singleton] at length ⊢
    have front := ih earlier (by omega)
    -- both take the least node that may come next
    have more : before.length < order'.length := by omega
    have split : order' = before ++ order'[before.length] :: order'.drop (before.length + 1) := by
      have whole := take_append_drop before.length order'
      rw [← front] at whole
      rw [← drop_eq_getElem_cons more, whole]
    have one := greedy before y [] rfl
    have two := other before _ _ split
    have same : y = order'[before.length] := le_antisymm (one.2 _ two.1) (two.2 _ one.1)
    rw [take_succ_eq_append_getElem more, ← front, ← same]

/-- A greedy order of all nodes comes before every other topological order. -/
theorem Greedy.least [LinearOrder A] {other} (greedy : Greedy node r order)
    (mem : ∀ x, x ∈ order ↔ node x) (topological : Topological node r other) :
    order = other ∨ List.Lex (· < ·) order other := by
  have distinct := greedy.nodup
  have from_ : ∀ (left right before : List A), order = before ++ left → other = before ++ right →
      left = right ∨ List.Lex (· < ·) left right := by
    intro left
    induction left with
    | nil =>
      intro right before first second
      left
      cases right with
      | nil => rfl
      | cons z right =>
        -- every node is listed before, so the other order lists one twice
        exfalso
        have again : z ∈ before := by
          rw [append_nil] at first
          rw [← first, mem, ← topological.mem, second]
          simp
        have twice := topological.nodup
        rw [second] at twice
        exact (nodup_append.mp twice).2.2 z again z mem_cons_self rfl
    | cons y left ih =>
      intro right before first second
      cases right with
      | nil =>
        exfalso
        have again : y ∈ before := by
          rw [append_nil] at second
          rw [← second, topological.mem, ← mem, first]
          simp
        have twice := distinct
        rw [first] at twice
        exact (nodup_append.mp twice).2.2 y again y mem_cons_self rfl
      | cons z right =>
        have fresh : z ∉ before := by
          intro again
          have twice := topological.nodup
          rw [second] at twice
          exact (nodup_append.mp twice).2.2 z again z mem_cons_self rfl
        have next : Available node r before z := by
          refine ⟨(topological.mem z).mp (by rw [second]; simp), fresh, ?_⟩
          exact topological.after before z right second
        have below := (greedy before y left first).2 z next
        rcases lt_or_eq_of_le below with less | rfl
        · exact Or.inr (.rel less)
        · have rest := ih right (before ++ [y]) (by rw [first]; simp) (by rw [second]; simp)
          rcases rest with rfl | less
          · exact Or.inl rfl
          · exact Or.inr (.cons less)
  exact from_ order other [] rfl rfl

/-- A path of so many steps to a node. -/
inductive PathTo (node : A → Prop) (r : A → A → Prop) : Nat → A → Prop
  | here {x : A} : node x → PathTo node r 0 x
  | step {n : Nat} {x y : A} : PathTo node r n x → r x y → PathTo node r (n + 1) y

/-- The length of the longest path to a node. -/
def Longest (node : A → Prop) (r : A → A → Prop) (n : Nat) (x : A) : Prop :=
  PathTo node r n x ∧ ∀ m, PathTo node r m x → m ≤ n

theorem PathTo.is_node (path : PathTo node r n x) (closed : ∀ x y, node x → r x y → node y) :
    node x := by
  induction path with
  | here there => exact there
  | step _ leads ih => exact closed _ _ ih leads

section Rank

variable [DecidableEq A]

theorem Topological.idxOf_lt (topological : Topological node r order) (first : node x)
    (second : node y) (leads : r x y) : order.idxOf x < order.idxOf y := by
  obtain ⟨before, rest, split⟩ := append_of_mem ((topological.mem y).mpr second)
  have earlier := topological.after before y rest split x first leads
  have fresh : y ∉ before := by
    intro again
    have twice := topological.nodup
    rw [split] at twice
    exact (nodup_append.mp twice).2.2 y again y mem_cons_self rfl
  have left : order.idxOf x = before.idxOf x := by
    rw [split]
    exact idxOf_append_of_mem earlier
  have right : order.idxOf y = before.length := by
    rw [split, idxOf_append_of_notMem fresh]
    simp
  rw [left, right]
  exact idxOf_lt_length_of_mem earlier

end Rank

theorem Topological.acyclic (topological : Topological node r order)
    (closed : ∀ x y, node x → r x y → node y) (x : A) (first : node x) : ¬ TransGen r x x := by
  classical
  have grows : ∀ y, TransGen r x y → node y ∧ order.idxOf x < order.idxOf y := by
    intro y walk
    induction walk with
    | single leads =>
      have second := closed _ _ first leads
      exact ⟨second, topological.idxOf_lt first second leads⟩
    | tail _ leads ih =>
      have second := closed _ _ ih.1 leads
      exact ⟨second, ih.2.trans (topological.idxOf_lt ih.1 second leads)⟩
  intro cycle
  exact absurd (grows x cycle).2 (Nat.lt_irrefl _)

theorem exists_cycle (nodes : List A) (left : A → Prop) (inside : ∀ x, left x → x ∈ nodes)
    (some : ∃ x, left x) (back : ∀ y, left y → ∃ x, left x ∧ r x y) :
    ∃ x, left x ∧ TransGen r x x := by
  by_contra none
  -- otherwise the walks among these nodes are well-founded, and a least node has no predecessor
  let below : {x // left x} → {x // left x} → Prop := fun x y => TransGen r x.1 y.1
  have finite : Finite {x // left x} :=
    Set.Finite.subset (finite_toSet nodes) inside
  have irrefl : Std.Irrefl below := ⟨fun x cycle => none ⟨x.1, x.2, cycle⟩⟩
  have wellFounded : WellFounded below := Finite.wellFounded_of_trans_of_irrefl below
  obtain ⟨x, start⟩ := some
  obtain ⟨least, -, minimal⟩ :=
    wellFounded.has_min (Set.univ : Set {x // left x}) ⟨⟨x, start⟩, trivial⟩
  obtain ⟨y, there, leads⟩ := back least.1 least.2
  exact minimal ⟨y, there⟩ trivial (.single leads)

/-- Nodes that lie on a cycle or behind one. -/
def Behind (node : A → Prop) (r : A → A → Prop) (x : A) : Prop :=
  ∃ c, node c ∧ TransGen r c c ∧ ReflTransGen r c x

theorem Behind.step (behind : Behind node r x) (leads : r x y) : Behind node r y := by
  obtain ⟨c, there, cycle, walk⟩ := behind
  exact ⟨c, there, cycle, walk.tail leads⟩

theorem Behind.back (closed : ∀ x y, node x → r x y → node y) (behind : Behind node r y) :
    ∃ x, node x ∧ r x y ∧ Behind node r x := by
  obtain ⟨c, there, cycle, walk⟩ := behind
  have walked : ∀ {z}, ReflTransGen r c z → node z := by
    intro z walk
    induction walk with
    | refl => exact there
    | tail _ leads ih => exact closed _ _ ih leads
  cases walk with
  | refl =>
    obtain ⟨x, before, leads⟩ := TransGen.tail'_iff.mp cycle
    exact ⟨x, walked before, leads, y, there, cycle, before⟩
  | tail before leads => exact ⟨_, walked before, leads, c, there, cycle, before⟩

theorem Greedy.not_behind [LinearOrder A] (greedy : Greedy node r order)
    (closed : ∀ x y, node x → r x y → node y) (x : A) (listed : x ∈ order) : ¬ Behind node r x := by
  -- the node that leads to it would be taken before it
  induction order using List.reverseRecOn generalizing x with
  | nil => cases listed
  | append_singleton before last ih =>
    have earlier : Greedy node r before := by
      intro front y rest split
      exact greedy front y (rest ++ [last]) (by rw [split]; simp)
    rcases mem_append.mp listed with old | new
    · exact ih earlier x old
    · intro behind
      rw [mem_singleton] at new
      subst new
      obtain ⟨z, there, leads, behind'⟩ := behind.back closed
      exact ih earlier z ((greedy before x [] rfl).1.2.2 z there leads) behind'

theorem behind_of_left {nodes : List A} (left : A → Prop) (inside : ∀ x, left x → x ∈ nodes)
    (there : ∀ x, left x → node x) (back : ∀ y, left y → ∃ x, left x ∧ r x y) (x : A)
    (start : left x) : Behind node r x := by
  obtain ⟨c, ⟨inLeft, walk⟩, cycle⟩ := exists_cycle (r := r) nodes
    (fun y => left y ∧ ReflTransGen r y x) (fun y both => inside y both.1) ⟨x, start, .refl⟩ (by
      rintro y ⟨inLeft, walk⟩
      obtain ⟨z, left', leads⟩ := back y inLeft
      exact ⟨z, ⟨left', walk.head leads⟩, leads⟩)
  exact ⟨c, there c inLeft, cycle, walk⟩

end Lib
