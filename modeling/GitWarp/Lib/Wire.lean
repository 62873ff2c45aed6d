import Mathlib.Data.List.Basic

/-!
# Self-delimiting encodings

An encoding of values as sequences that a decoder can read off the front of any
longer sequence. Such encodings compose: pairs follow each other, and a list marks
each item and its own end.
-/
namespace Lib

open List

variable {A B C : Type}

structure Wire (C A : Type) where
  encode : A → List C
  decode : List C → Option (A × List C)
  round_trip : ∀ a rest, decode (encode a ++ rest) = some (a, rest)

namespace Wire

/-- One symbol. -/
def symbol : Wire C C where
  encode c := [c]
  decode
    | [] => none
    | c :: rest => some (c, rest)
  round_trip _ _ := rfl

def pair (first : Wire C A) (second : Wire C B) : Wire C (A × B) where
  encode value := first.encode value.1 ++ second.encode value.2
  decode input := do
    let (a, rest) ← first.decode input
    let (b, rest) ← second.decode rest
    pure ((a, b), rest)
  round_trip value rest := by
    simp [List.append_assoc, first.round_trip, second.round_trip]

/-- An encoding along a map with a left inverse. -/
def via (wire : Wire C B) (into : A → B) (back : B → A) (inverse : ∀ a, back (into a) = a) :
    Wire C A where
  encode a := wire.encode (into a)
  decode input := (wire.decode input).map fun result => (back result.1, result.2)
  round_trip a rest := by simp [wire.round_trip, inverse]

/-- A value with nothing to tell. -/
def nothing : Wire C Unit where
  encode _ := []
  decode input := some ((), input)
  round_trip _ _ := rfl

theorem encode_injective (wire : Wire C A) : Function.Injective wire.encode := by
  intro a b same
  have left := wire.round_trip a []
  rw [same, wire.round_trip b []] at left
  exact (congrArg Prod.fst (Option.some.inj left)).symm

/-- Each item after a mark `more`, the end after `stop`. -/
def encodeItems (more stop : C) (item : Wire C A) : List A → List C
  | [] => [stop]
  | a :: rest => more :: item.encode a ++ encodeItems more stop item rest

def decodeItems [DecidableEq C] (more stop : C) (item : Wire C A) : Nat → List C → Option (List A × List C)
  | 0, _ => none
  | _, [] => none
  | fuel + 1, mark :: input =>
    if mark = stop then some ([], input)
    else if mark = more then do
      let (a, rest) ← item.decode input
      let (items, rest) ← decodeItems more stop item fuel rest
      pure (a :: items, rest)
    else none

theorem decodeItems_encodeItems [DecidableEq C] {more stop} (apart : more ≠ stop) (item : Wire C A)
    {items rest} (fuel) (enough : items.length < fuel) :
    decodeItems more stop item fuel (encodeItems more stop item items ++ rest) = some (items, rest) := by
  induction items generalizing fuel with
  | nil =>
    cases fuel with
    | zero => omega
    | succ fuel => simp [encodeItems, decodeItems]
  | cons a items ih =>
    cases fuel with
    | zero => simp at enough
    | succ fuel =>
      have later := ih fuel (by simpa using enough)
      simp [encodeItems, decodeItems, apart, append_assoc, item.round_trip, later]

theorem length_lt_encodeItems (more stop : C) (item) (items : List A) :
    items.length < (encodeItems more stop item items).length := by
  induction items with
  | nil => simp [encodeItems]
  | cons a items ih =>
    simp only [encodeItems, length_cons, length_append, cons_append]
    omega

def list [DecidableEq C] (more stop : C) (apart : more ≠ stop) (item : Wire C A) : Wire C (List A) where
  encode := encodeItems more stop item
  decode input := decodeItems more stop item (input.length + 1) input
  round_trip items rest := by
    refine decodeItems_encodeItems apart item _ ?_
    have long := length_lt_encodeItems more stop item items
    rw [List.length_append]
    omega

/-- As many marks as the number says. -/
def number [DecidableEq C] (more stop : C) (apart : more ≠ stop) : Wire C Nat :=
  (list more stop apart nothing).via (fun n => List.replicate n ()) List.length
    (fun _ => List.length_replicate)

end Wire
end Lib
