import GitWarp.Js.Text

/-!
# Dots

A dot names one add operation by its writer and that writer's counter. Sets of
dots hold the encoded form, `writerId:counter`, so two dots are the same tag
exactly when their encodings are.
-/
namespace GitWarp

open Js List

def crdtError (code message : String) : Failure := ⟨.crdtError, lit code, lit message⟩

theorem counter_three : 0 < 3 := by decide

theorem lamport_two : (0 : Int) < 2 := by decide

/-! Writers of the examples have names. -/

theorem w_named : lit "w" ≠ [] := by decide

theorem a_named : lit "a" ≠ [] := by decide

theorem b_named : lit "b" ≠ [] := by decide

theorem alice_named : lit "alice" ≠ [] := by decide

structure Dot where
  writerId : JsString
  counter : Nat
  named : writerId ≠ []
  positive : 0 < counter
  deriving DecidableEq

namespace Dot

def create (writerId : JsString) (counter : Int) : Except Failure Dot :=
  if named : writerId = [] then
    .error (crdtError "E_CRDT_INVALID_WRITER_ID" "writerId must be a non-empty string")
  else if positive : counter ≤ 0 then
    .error (crdtError "E_CRDT_INVALID_COUNTER" "counter must be a positive integer")
  else .ok ⟨writerId, counter.toNat, named, toNat_pos positive⟩

def colon : CodeUnit := 58

def encode (dot : Dot) : JsString := dot.writerId ++ colon :: numberText dot.counter

def decode (encoded : JsString) : Except Failure Dot :=
  match lastIndexOf colon encoded with
  | none => .error (crdtError "E_CRDT_MALFORMED" "Invalid encoded dot format: missing colon")
  | some lastColonIndex =>
    let writerId := encoded.take lastColonIndex
    let counterStr := encoded.drop (lastColonIndex + 1)
    if writerId = [] then
      .error (crdtError "E_CRDT_INVALID_WRITER_ID" "Invalid encoded dot format: empty writerId")
    else
      match parseInt counterStr with
      | none =>
        .error (crdtError "E_CRDT_INVALID_COUNTER" "Invalid encoded dot format: invalid counter")
      | some counter =>
        if counter ≤ 0 then
          .error (crdtError "E_CRDT_INVALID_COUNTER" "Invalid encoded dot format: invalid counter")
        else create writerId counter

/-! ### Number texts have no colon -/

theorem colon_not_mem_decimalText (n) : colon ∉ decimalText n := by
  intro mem
  have digit := digit_of_mem_decimalText mem
  simp [colon] at digit

theorem colon_not_mem_numberText (n) : colon ∉ numberText n := by
  unfold numberText
  split
  · exact colon_not_mem_decimalText n
  · have digits := colon_not_mem_decimalText n
    have exponent := colon_not_mem_decimalText ((decimalText n).length - 1)
    have mantissa :
        colon ∉ ((decimalText n).reverse.dropWhile (· = digitUnit '0')).reverse.drop 1 :=
      fun mem => digits (mem_reverse.mp
        ((dropWhile_sublist _).subset (mem_reverse.mp (mem_of_mem_drop mem))))
    have punctuation : colon ∉ lit "." ∧ colon ∉ lit "e+" := by decide
    simp only [exponentText, mem_append, not_or]
    refine ⟨⟨⟨fun mem => digits (mem_of_mem_take mem), ?_⟩, punctuation.2⟩, exponent⟩
    split
    · exact not_mem_nil
    · simp only [mem_append, not_or]
      exact ⟨punctuation.1, mantissa⟩

theorem lastIndexOf_append_cons (before) {after : JsString} (absent : u ∉ after) :
    lastIndexOf u (before ++ u :: after) = some before.length := by
  have missing : lastIndexOf u after = none := by
    induction after with
    | nil => rfl
    | cons head rest ih =>
      simp only [mem_cons, not_or] at absent
      simp [lastIndexOf, ih absent.2, Ne.symm absent.1]
  induction before with
  | nil => simp [lastIndexOf, missing]
  | cons head rest ih => simp [lastIndexOf, ih]

theorem decode_encode (dot : Dot) :
    ∃ decoded, decode dot.encode = .ok decoded ∧ decoded.writerId = dot.writerId := by
  obtain ⟨counter, positive, parsed⟩ := parseInt_numberText_pos dot.positive
  have position := lastIndexOf_append_cons dot.writerId
    (colon_not_mem_numberText dot.counter)
  have writer : (dot.writerId ++ colon :: numberText dot.counter).take dot.writerId.length =
      dot.writerId := by simp
  have text : (dot.writerId ++ colon :: numberText dot.counter).drop (dot.writerId.length + 1) =
      numberText dot.counter := by simp
  have notLow : ¬ ((counter : Int) ≤ 0) := by omega
  refine ⟨⟨dot.writerId, counter, dot.named, positive⟩, ?_, rfl⟩
  simp only [decode, encode, position, writer, text, parsed, dot.named, notLow, if_false]
  simp [create, dot.named, Nat.pos_iff_ne_zero.mp positive]

end Dot
end GitWarp
