import GitWarp.Lib.OrdMap

/-!
# Grouping by a key

Items are pushed one by one onto the list of their key. A group lists the items of
its key in the order they came, and there is a group for every key that occurs.
-/
namespace Lib

variable {A K V : Type} [DecidableEq K]

/-- Puts a value at the end of the list of its key. -/
def OrdMap.push (m : OrdMap K (List V)) (k : K) (v : V) : OrdMap K (List V) :=
  m.set k ((m.get k).getD [] ++ [v])

/-- The groups of some items, keys in the order of their first item. -/
def groupBy (key : A → K) (value : A → V) (items : List A) : OrdMap K (List V) :=
  items.foldl (fun groups item => groups.push (key item) (value item)) .empty

/-- What the items of one key are worth. -/
def groupOf (key : A → K) (value : A → V) (items : List A) (k : K) : List V :=
  (items.filter fun item => decide (key item = k)).map value

variable (key : A → K) (value : A → V)

theorem groupOf_cons (item : A) (items) (k : K) :
    groupOf key value (item :: items) k =
      (if key item = k then [value item] else []) ++ groupOf key value items k := by
  unfold groupOf
  by_cases same : key item = k <;> simp [same]

theorem get_push (m : OrdMap K (List V)) (k k' : K) (v : V) :
    ((m.push k v).get k').getD [] = (m.get k').getD [] ++ if k = k' then [v] else [] := by
  unfold OrdMap.push
  rw [OrdMap.get_set]
  by_cases same : k = k'
  · subst same
    simp
  · simp [same, Ne.symm same]

theorem get_foldl_push (m : OrdMap K (List V)) (k : K) :
    ((items.foldl (fun groups item => groups.push (key item) (value item)) m).get k).getD [] =
      (m.get k).getD [] ++ groupOf key value items k := by
  induction items generalizing m with
  | nil => simp [groupOf]
  | cons item items ih =>
    rw [List.foldl_cons, ih, get_push, groupOf_cons, List.append_assoc]

theorem ne_nil_of_get_foldl_push (items : List A) (m : OrdMap K (List V))
    (filled : ∀ k group, m.get k = some group → group ≠ []) (k : K) (group)
    (held : (items.foldl (fun groups item => groups.push (key item) (value item)) m).get k =
      some group) : group ≠ [] := by
  induction items generalizing m with
  | nil => exact filled k group held
  | cons item items ih =>
    apply ih (m.push (key item) (value item)) ?_ held
    exact OrdMap.forall_set (by simp) filled

theorem getD_groupBy (items) (k : K) :
    ((groupBy key value items).get k).getD [] = groupOf key value items k :=
  get_foldl_push key value .empty k

theorem get_groupBy (items) (k : K) :
    (groupBy key value items).get k =
      if groupOf key value items k = [] then none else some (groupOf key value items k) := by
  have content := getD_groupBy key value items k
  have filled := ne_nil_of_get_foldl_push key value items .empty (by simp) k
  cases held : (groupBy key value items).get k with
  | none =>
    rw [held] at content
    have empty : groupOf key value items k = [] := content.symm
    rw [if_pos empty]
  | some group =>
    rw [held] at content
    have same : group = groupOf key value items k := content
    rw [← same, if_neg (filled group held)]

end Lib
