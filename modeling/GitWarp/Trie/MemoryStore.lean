import GitWarp.Lib.Wire
import GitWarp.Trie.Flushing

/-!
# A store in memory

The collaborators of a cursor, as the tests of the trie have them: a store that keeps
each page once and names it by its place, and a codec for leaf envelopes. Both meet
what the flush assumes of a store and a codec.
-/
namespace GitWarp

open Js Lib TrieCursor List

/-! ### The store -/

/-- `InMemoryTrieStore`, with the pages in the order of their first write. -/
abbrev MemoryStore := List StoreWrite

variable (s : MemoryStore)

namespace MemoryStore

def oidText : JsString := lit "page-"

def oidOf (i : Nat) : Oid := oidText ++ List.replicate i 120

def lookup (s : MemoryStore) (oid : Oid) : Option StoreWrite :=
  if oid = oidOf (oid.length - oidText.length) then s[oid.length - oidText.length]? else none

def missing (oid : Oid) : Failure :=
  ⟨.trieStoreError, lit "E_TRIE_STORE_MISSING", oid ++ lit " missing"⟩

/-- The same page again gets the same identifier. -/
def write (s : MemoryStore) (page : StoreWrite) : Oid × MemoryStore :=
  match s.idxOf? page with
  | some i => (oidOf i, s)
  | none => (oidOf s.length, s ++ [page])

def port : TrieStorePort MemoryStore where
  readLeaf s oid :=
    match s.lookup oid with
    | some (.leaf bytes) => .ok bytes
    | _ => .error (missing oid)
  readBranch s oid :=
    match s.lookup oid with
    | some (.branch entries) => .ok entries
    | _ => .error (missing oid)
  writeLeaf s bytes := .ok (s.write (.leaf bytes))
  writeBranch s entries := .ok (s.write (.branch entries))

theorem length_oidOf (i) : (oidOf i).length - oidText.length = i := by
  simp [oidOf]

@[simp] theorem lookup_oidOf (i) : s.lookup (oidOf i) = s[i]? := by
  simp [lookup, length_oidOf]

theorem validOid_oidOf : ValidOid (oidOf i) where
  nonempty := by
    have nonempty : oidText ≠ [] := by decide
    simp [oidOf, nonempty]
  stored := by
    have short : oidText.length = 5 := by decide
    have differs : pendingOidText.take 5 ≠ oidText := by decide
    rw [isPendingOid, ← Bool.not_eq_true, isPrefixOf_iff_prefix]
    intro pending
    apply differs
    have front := ( take_prefix 5 pendingOidText).trans pending
    have size : (pendingOidText.take 5).length = oidText.length := by decide
    have initial : oidText <+: oidOf i := prefix_append _ _
    exact (prefix_of_prefix_length_le front initial size.le).eq_of_length size

theorem lookup_write : (s.write page).2.lookup (s.write page).1 = some page := by
  unfold write
  split
  next i found =>
    obtain ⟨inside, same, -⟩ := List.idxOf?_eq_some_iff.mp found
    rw [lookup_oidOf, List.getElem?_eq_getElem inside, same]
  · rw [lookup_oidOf]
    simp

theorem lookup_mono (found : s.lookup oid = some held) :
    (s.write page).2.lookup oid = some held := by
  unfold write
  split
  · exact found
  · unfold lookup at found ⊢
    split at found
    next named =>
      rw [if_pos named]
      exact List.getElem?_append_left (List.getElem?_eq_some_iff.mp found).1 ▸ found
    · cases found

theorem readLeaf_ok (oid bytes) :
    port.readLeaf s oid = .ok bytes ↔ s.lookup oid = some (.leaf bytes) := by
  simp only [port]
  split
  next held found => simp [found]
  next other =>
    refine ⟨fun impossible => (nomatch impossible), fun found => ?_⟩
    exact absurd found (other bytes)

theorem readBranch_ok (oid) (entries) :
    port.readBranch s oid = .ok entries ↔ s.lookup oid = some (.branch entries) := by
  simp only [port]
  split
  next held found => simp [found]
  next other =>
    refine ⟨fun impossible => (nomatch impossible), fun found => ?_⟩
    exact absurd found (other entries)

theorem noLeaf_of_branch (found : s.lookup oid = some (.branch entries)) : port.NoLeaf s oid := by
  refine ⟨missing oid, by simp [port, found], ?_⟩
  simp [isMissingStoreError, missing]

theorem grows_write (s) : port.Grows s (s.write page).2 where
  leaf := by
    intro oid bytes read
    rw [readLeaf_ok] at read ⊢
    exact lookup_mono s read
  branch := by
    intro oid entries read
    rw [readBranch_ok] at read ⊢
    exact lookup_mono s read
  noLeaf := by
    intro oid entries read _
    rw [readBranch_ok] at read
    exact noLeaf_of_branch _ (lookup_mono s read)

theorem validOid_write : ValidOid (s.write page).1 := by
  unfold write
  split
  · exact validOid_oidOf
  · exact validOid_oidOf

theorem lawful : port.Lawful where
  writeLeaf := by
    intro s bytes _
    exact ⟨_, _, rfl, validOid_write s, (readLeaf_ok _ _ _).mpr (lookup_write s), grows_write s⟩
  writeBranch := by
    intro s entries _
    refine ⟨_, _, rfl, validOid_write s, ⟨entries, ?_, .refl entries⟩, ?_, grows_write s⟩
    · exact (readBranch_ok _ _ _).mpr (lookup_write s)
    · exact noLeaf_of_branch _ (lookup_write s)

end MemoryStore

/-! ### The codec -/

namespace EnvelopeCodec

/-- Two bytes for a code unit, high byte first. -/
def unit : Wire (BitVec 8) CodeUnit :=
  (Wire.pair Wire.symbol Wire.symbol).via
    (fun u => (byteOf (u.val / 256), byteOf (u.val % 256)))
    (fun bytes => Fin.ofNat 65536 (bytes.1.toNat * 256 + bytes.2.toNat))
    (by
      intro u
      have small := u.isLt
      apply Fin.ext
      simp only [byteOf, BitVec.toNat_ofNat, Fin.ofNat_eq_cast, Fin.val_natCast]
      omega)

def list {A : Type} (item : Wire (BitVec 8) A) : Wire (BitVec 8) (List A) :=
  Wire.list 1 0 (by decide) item

def text : Wire (BitVec 8) JsString := list unit

/-- A number as that many marks. -/
def number : Wire (BitVec 8) Nat :=
  (list Wire.symbol).via (fun n => List.replicate n (0 : BitVec 8)) List.length (by simp)

def envelope : Wire (BitVec 8) LeafWireFormat :=
  (number.pair (list ((list Wire.symbol).pair (text.pair ((list text).pair (list text)))))).via
    (fun wire => (wire.version, wire.entries)) (fun parts => ⟨parts.1, parts.2⟩) (fun _ => rfl)

def port : CodecPort where
  encode wire := .ok (envelope.encode wire)
  decode bytes := (envelope.decode bytes).map Prod.fst

theorem lawful : port.Lawful := by
  intro wire
  refine ⟨envelope.encode wire, rfl, ?_, ?_⟩
  · -- the list of entries ends with a mark of its own
    have long := Wire.length_lt_encodeItems (1 : BitVec 8) 0 Wire.symbol (List.replicate wire.version 0)
    intro empty
    have nothing : Wire.encodeItems (1 : BitVec 8) 0 Wire.symbol (List.replicate wire.version 0) = [] :=
      (append_eq_nil_iff.mp empty).1
    rw [nothing] at long
    exact absurd long (Nat.not_lt_zero _)
  · have decoded := envelope.round_trip wire []
    rw [append_nil] at decoded
    simp [port, decoded]

end EnvelopeCodec

/-- The cursor's collaborators in memory, for a geometry and a hash. -/
def memoryEnv (g : TrieGeometry) (blake3 : Blake3) : TrieEnv MemoryStore :=
  ⟨g, MemoryStore.port, EnvelopeCodec.port, blake3⟩

theorem memoryEnv_lawful : (memoryEnv g blake3).Lawful :=
  ⟨MemoryStore.lawful, EnvelopeCodec.lawful⟩

/-! ### Concrete keys -/

/-- The route key with these 256 bits. -/
def digest (bits : Nat) : RouteKey :=
  ⟨(List.range 32).map fun i => byteOf (bits / 256 ^ (31 - i)), by simp⟩

/-- The hash on some one-letter elements; `a` and `b` start with the same nibble. -/
def letterBlake3 : Blake3 := fun bytes =>
  if bytes = [0x61] then
    digest 0x17762fddd969a453925d65717ac3eea21320b66b54342fde15128d6caf21215f
  else if bytes = [0x62] then
    digest 0x10e5cf3d3c8a4f9f3468c8cc58eea84892a22fdadbc1acb22410190044c1d553
  else if bytes = [0x63] then
    digest 0xea7aa1fc9efdbe106dbb70369a75e9671fa29d52bd55536711bf197477b8f021
  else if bytes = [0x64] then
    digest 0xd5ede538f628f687e5e0422c7755b503653de2dcd7053ca8791afa5d4787d843
  else digest 0

/-- Leaves of one entry, so that every second element splits one. -/
def narrowGeometry : TrieGeometry where
  fanout := 16
  nibbleBits := 4
  leafCapacity := 1
  leafFloor := 0
  supported := TrieGeometry.default16way.supported
  width := TrieGeometry.default16way.width
  room := by decide
  below := by decide

end GitWarp
