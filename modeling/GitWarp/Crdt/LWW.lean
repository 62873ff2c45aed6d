import Mathlib.Data.Prod.Lex
import Mathlib.Order.Fin.Basic
import GitWarp.Lib.Winner
import GitWarp.Js.Text

/-!
# Event identifiers and last-writer-wins registers

Events are ordered by lamport, then writer, then patch sha, then operation
index. A register keeps the value of its greatest event.
-/
namespace GitWarp

open Js Lib

def patchError (message : JsString) : Failure :=
  ⟨.patchError, lit "E_PATCH_MALFORMED", message⟩

def isHexUnit (u : CodeUnit) : Bool :=
  decide ((48 ≤ u.val ∧ u.val ≤ 57) ∨ (97 ≤ u.val ∧ u.val ≤ 102))

/-- `HEX_OID_REGEX`: four to sixty-four lowercase hexadecimal digits. -/
def isHexOid (text : JsString) : Bool :=
  text.all isHexUnit && decide (4 ≤ text.length ∧ text.length ≤ 64)

theorem aaaa_hex : isHexOid (lit "aaaa") = true := by decide

theorem bbbb_hex : isHexOid (lit "bbbb") = true := by decide

structure EventId where
  lamport : Nat
  writerId : JsString
  patchSha : JsString
  opIndex : Nat
  positive : 0 < lamport
  named : writerId ≠ []
  hex : isHexOid patchSha = true

namespace EventId

def create (lamport : Int) (writerId patchSha : JsString) (opIndex : Nat) :
    Except Failure EventId :=
  if positive : lamport ≤ 0 then .error (patchError (lit "lamport must be a positive integer"))
  else if named : writerId = [] then
    .error (patchError (lit "writerId must be a non-empty string"))
  else if hex : isHexOid patchSha = true then
    .ok ⟨lamport.toNat, writerId, patchSha, opIndex, toNat_pos positive, named, hex⟩
  else .error (patchError (lit "patchSha must be a hex string of 4-64 characters"))

@[ext] theorem ext_fields {a b : EventId} (lamport : a.lamport = b.lamport)
    (writerId : a.writerId = b.writerId) (patchSha : a.patchSha = b.patchSha)
    (opIndex : a.opIndex = b.opIndex) : a = b := by
  cases a; cases b; simp_all

instance : DecidableEq EventId := fun a b =>
  decidable_of_iff (a.lamport = b.lamport ∧ a.writerId = b.writerId ∧ a.patchSha = b.patchSha ∧
      a.opIndex = b.opIndex)
    ⟨fun same => ext_fields same.1 same.2.1 same.2.2.1 same.2.2.2, fun same => by simp [same]⟩

def key (e : EventId) : ℕ ×ₗ JsString ×ₗ JsString ×ₗ ℕ :=
  toLex (e.lamport, toLex (e.writerId, toLex (e.patchSha, e.opIndex)))

theorem key_injective : Function.Injective key := by
  intro a b same
  have fields : (a.lamport, a.writerId, a.patchSha, a.opIndex) =
      (b.lamport, b.writerId, b.patchSha, b.opIndex) := same
  simp only [Prod.mk.injEq] at fields
  exact ext_fields fields.1 fields.2.1 fields.2.2.1 fields.2.2.2

instance : LinearOrder EventId := LinearOrder.lift' key key_injective

theorem lt_iff (a b : EventId) : a < b ↔ a.lamport < b.lamport ∨ a.lamport = b.lamport ∧
    (a.writerId < b.writerId ∨ a.writerId = b.writerId ∧
      (a.patchSha < b.patchSha ∨ a.patchSha = b.patchSha ∧ a.opIndex < b.opIndex)) := by
  change key a < key b ↔ _
  simp only [key, Prod.Lex.toLex_lt_toLex]

end EventId

/-- One field of a comparison: decided here unless the fields are equal. -/
def compareField {A : Type} [LinearOrder A] (x y : A) (rest : Int) : Int :=
  if x ≠ y then if x < y then -1 else 1 else rest

theorem compareField_neg_iff {A} [LinearOrder A] (x y : A) (rest) :
    compareField x y rest < 0 ↔ x < y ∨ x = y ∧ rest < 0 := by
  unfold compareField
  rcases lt_trichotomy x y with below | same | above
  · simp [below, ne_of_lt below]
  · simp [same]
  · simp [not_lt_of_gt above, ne_of_gt above]

theorem compareField_pos_iff {A} [LinearOrder A] (x y : A) (rest) :
    0 < compareField x y rest ↔ y < x ∨ y = x ∧ 0 < rest := by
  unfold compareField
  rcases lt_trichotomy x y with below | same | above
  · simp [below, ne_of_lt below, ne_of_gt below, not_lt_of_gt below]
  · simp [same]
  · simp [above, not_lt_of_gt above, ne_of_gt above]

def compareEventIds (a b : EventId) : Int :=
  compareField a.lamport b.lamport <|
  compareField a.writerId b.writerId <|
  compareField a.patchSha b.patchSha <|
  compareField a.opIndex b.opIndex 0

theorem compareEventIds_neg_iff (a b) : compareEventIds a b < 0 ↔ a < b := by
  simp [compareEventIds, compareField_neg_iff, EventId.lt_iff]

theorem compareEventIds_pos_iff : 0 < compareEventIds a b ↔ b < a := by
  simp [compareEventIds, compareField_pos_iff, EventId.lt_iff]

variable {V : Type}

structure LWWRegister (V : Type) where
  eventId : EventId
  value : V
  deriving DecidableEq

/-- `LWWRegister.max`: on equal events the first argument is returned. -/
def lwwMax : Option (LWWRegister V) → Option (LWWRegister V) → Option (LWWRegister V)
  | none, b => b
  | some a, none => some a
  | some a, some b => if 0 ≤ compareEventIds a.eventId b.eventId then some a else some b

theorem lwwMax_eq_later (a b : Option (LWWRegister V)) :
    lwwMax a b = later LWWRegister.eventId a b := by
  cases a with
  | none => rfl
  | some a =>
    cases b with
    | none => rfl
    | some b =>
      have order : 0 ≤ compareEventIds a.eventId b.eventId ↔ b.eventId ≤ a.eventId := by
        rw [← not_lt, compareEventIds_neg_iff, not_lt]
      simp only [lwwMax, later, order]

end GitWarp
