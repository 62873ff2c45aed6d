import GitWarp.Trie.Flusher
import GitWarp.Trie.Compacting

/-!
# Flushing

A flush needs of its store that a written page can be read back, and that later writes
leave it readable. Then writing the dirty pages deepest first stores every dirty subtree,
and a cursor opened on the returned root shows what the flushed cursor shows.
-/
namespace GitWarp

open Js Lib TrieCursor List

variable {S : Type}

/-! ### Stores and codecs -/

namespace TrieStorePort

variable (store : TrieStorePort S)

/-- The identifier names a page of the store. -/
def Known (s : S) (oid : Oid) : Prop :=
  (∃ bytes, store.readLeaf s oid = .ok bytes) ∨ ∃ entries, store.readBranch s oid = .ok entries

/-- No leaf has the identifier. -/
def NoLeaf (s : S) (oid : Oid) : Prop :=
  ∃ raw, store.readLeaf s oid = .error raw ∧ isMissingStoreError raw = true

/-- Every page of the first store is one of the second. -/
structure Grows (s s' : S) : Prop where
  leaf : ∀ oid bytes, store.readLeaf s oid = .ok bytes → store.readLeaf s' oid = .ok bytes
  branch : ∀ oid entries, store.readBranch s oid = .ok entries → store.readBranch s' oid = .ok entries
  noLeaf : ∀ oid entries, store.readBranch s oid = .ok entries → store.NoLeaf s oid →
    store.NoLeaf s' oid

/-- A content-addressed store: pages can be read back, and stay. A branch may hold the
identifiers of stored pages, and is read back with the same children. -/
structure Lawful : Prop where
  writeLeaf : ∀ s bytes, bytes ≠ [] → ∃ oid s', store.writeLeaf s bytes = .ok (oid, s') ∧
    ValidOid oid ∧ store.readLeaf s' oid = .ok bytes ∧ store.Grows s s'
  writeBranch : ∀ s entries, (∀ child ∈ entries.entries, store.Known s child.2) →
    ∃ oid s', store.writeBranch s entries = .ok (oid, s') ∧ ValidOid oid ∧
      (∃ read, store.readBranch s' oid = .ok read ∧ read.Equiv entries) ∧ store.NoLeaf s' oid ∧
      store.Grows s s'

variable {store}

theorem Grows.refl : store.Grows s s :=
  ⟨fun _ _ read => read, fun _ _ read => read, fun _ _ _ missing => missing⟩

theorem Grows.trans (first : store.Grows s s') (second : store.Grows s' s'') : store.Grows s s'' :=
  ⟨fun oid bytes read => second.leaf oid bytes (first.leaf oid bytes read),
    fun oid entries read => second.branch oid entries (first.branch oid entries read),
    fun oid entries read missing =>
      second.noLeaf oid entries (first.branch oid entries read) (first.noLeaf oid entries read missing)⟩

end TrieStorePort

/-- A codec that round-trips leaf envelopes. -/
def CodecPort.Lawful (codec : CodecPort) : Prop :=
  ∀ wire, ∃ bytes, codec.encode wire = .ok bytes ∧ bytes ≠ [] ∧ codec.decode bytes = some wire

/-- The assumptions on the collaborators of a cursor. -/
structure TrieEnv.Lawful (env : TrieEnv S) : Prop where
  store : env.store.Lawful
  codec : env.codec.Lawful

variable {env : TrieEnv S} {s s' : S}

/-! ### Growing stores -/

theorem ReadsLeaf.grows (reads : ReadsLeaf env s o page) (grows : env.store.Grows s s') :
    ReadsLeaf env s' o page := by
  intro path
  have here := reads path
  unfold TrieEnv.tryReadLeaf at here ⊢
  cases read : env.store.readLeaf s o with
  | error raw =>
    -- a leaf that was read is not missing
    simp only [read] at here
    split at here <;> cases here
  | ok bytes =>
    simp only [read] at here
    simp only [grows.leaf o bytes read]
    exact here

theorem ReadsBranch.grows (reads : ReadsBranch env s o page) (grows : env.store.Grows s s') :
    ReadsBranch env s' o page := by
  obtain ⟨entries, read⟩ : ∃ entries, env.store.readBranch s o = .ok entries := by
    have here := reads.branch []
    unfold TrieEnv.readBranchStrict at here
    cases read : env.store.readBranch s o with
    | error raw => simp [read] at here
    | ok entries => exact ⟨entries, rfl⟩
  constructor
  · intro path
    have here := reads.notLeaf path
    unfold TrieEnv.tryReadLeaf at here ⊢
    cases leaf : env.store.readLeaf s o with
    | ok bytes =>
      simp only [leaf] at here
      simp only [grows.leaf o bytes leaf]
      exact here
    | error raw =>
      -- the page is a branch, so the larger store has no leaf under its identifier either
      simp only [leaf] at here
      have missing : isMissingStoreError raw = true := by
        by_contra other
        simp [other] at here
      obtain ⟨raw', leaf', missing'⟩ := grows.noLeaf o entries read ⟨raw, leaf, missing⟩
      simp [leaf', missing']
  · intro path
    have here := reads.branch path
    unfold TrieEnv.readBranchStrict at here ⊢
    simp only [read] at here
    simp only [grows.branch o entries read]
    exact here

theorem Stored.grows (stored : Stored env s t o) (grows : env.store.Grows s s') :
    Stored env s' t o := by
  induction t generalizing o with
  | absent => exact stored
  | leaf page => exact ⟨stored.1, stored.2.grows grows⟩
  | branch children ih =>
    obtain ⟨valid, page, reads, slots⟩ := stored
    refine ⟨valid, page, reads.grows grows, fun n => ?_⟩
    have slot := slots n
    split at slot
    · exact slot
    · exact ih n slot

theorem Clean.grows (clean : Clean env s c t p o) (grows : env.store.Grows s s') :
    Clean env s' c t p o := by
  induction t generalizing p o with
  | absent => exact clean
  | leaf page => exact ⟨clean.1, clean.2.1.grows grows, clean.2.2⟩
  | branch children ih =>
    obtain ⟨valid, page, reads, state, slots⟩ := clean
    refine ⟨valid, page, reads.grows grows, state, fun n => ?_⟩
    have slot := slots n
    split at slot
    · exact slot
    · exact ih n slot

theorem Dirty.grows (dirty : Dirty env s c t p) (grows : env.store.Grows s s') :
    Dirty env s' c t p := by
  induction t generalizing p with
  | absent | leaf page => exact dirty
  | branch children ih =>
    obtain ⟨page, held, slots⟩ := dirty
    refine ⟨page, held, fun n => ?_⟩
    have slot := slots n
    split at slot
    · exact slot
    · exact slot.imp (ih n) fun clean => clean.grows grows

theorem Shows.grows (shows_ : Shows env s c t) (grows : env.store.Grows s s') :
    Shows env s' c t where
  unloaded := by
    intro unloaded
    obtain ⟨untouched, held⟩ := shows_.unloaded unloaded
    refine ⟨untouched, ?_⟩
    split at held
    · exact held
    · exact held.grows grows
  loaded := by
    intro loaded
    rcases shows_.loaded loaded with dirty | rest
    · exact Or.inl (dirty.grows grows)
    · right
      split at rest
      · exact rest
      · exact ⟨rest.1.grows grows, rest.2⟩
  root := shows_.root

theorem Stored.known (stored : Stored env s t o) : env.store.Known s o := by
  cases t with
  | absent => exact stored.elim
  | leaf page =>
    left
    have here := stored.2 []
    unfold TrieEnv.tryReadLeaf at here
    cases read : env.store.readLeaf s o with
    | error raw =>
      simp only [read] at here
      split at here <;> cases here
    | ok bytes => exact ⟨bytes, rfl⟩
  | branch children =>
    right
    obtain ⟨-, page, reads, -⟩ := stored
    have here := reads.branch []
    unfold TrieEnv.readBranchStrict at here
    cases read : env.store.readBranch s o with
    | error raw => simp [read] at here
    | ok entries => exact ⟨entries, rfl⟩

theorem Stored.validOid (stored : Stored env s t o) : ValidOid o := by
  cases t with
  | absent => exact stored.elim
  | leaf page | branch children => exact stored.1

/-! ### Writing one page -/

theorem entryFromWire_entry :
    entryFromWire (entry.routeKeySuffix, entry.element, entry.dots.toList, entry.tombstonedDots.toList) =
      entry := by
  simp [entryFromWire, OrdSet.ofList_toList]

theorem serialize_spec (lawful : codec.Lawful) :
    ∃ bytes, page.serialize codec = .ok bytes ∧ bytes ≠ [] ∧
      TrieLeaf.deserialize codec bytes = .ok page := by
  obtain ⟨bytes, encoded, nonempty, decoded⟩ := lawful ⟨trieLeafWireVersion, page.entries.map fun entry =>
    (entry.routeKeySuffix, entry.element, entry.dots.toList, entry.tombstonedDots.toList)⟩
  refine ⟨bytes, encoded, nonempty, ?_⟩
  have entries : (page.entries.map fun entry => (entry.routeKeySuffix, entry.element,
      entry.dots.toList, entry.tombstonedDots.toList)).map entryFromWire = page.entries := by
    rw [map_map]
    exact (map_congr_left fun entry _ => entryFromWire_entry).trans (map_id _)
  simp only [TrieLeaf.deserialize, decoded, ne_eq, not_true_eq_false, if_false, entries]
  exact TrieLeaf.new_of_sorted page.sorted

theorem writeLeaf_stored (lawful : env.Lawful) :
    ∃ bytes oid s', page.serialize env.codec = .ok bytes ∧ env.store.writeLeaf s bytes = .ok (oid, s') ∧
      env.store.Grows s s' ∧ Stored env s' (.leaf page) oid := by
  obtain ⟨bytes, serialized, nonempty, decoded⟩ := serialize_spec lawful.codec
  obtain ⟨oid, s', written, valid, read, grows⟩ := lawful.store.writeLeaf s bytes nonempty
  refine ⟨bytes, oid, s', serialized, written, grows, valid, fun path => ?_⟩
  simp [TrieEnv.tryReadLeaf, read, nonempty, decoded]

theorem writeBranch_stored (lawful : env.Lawful) {page : TrieBranch env.geometry}
    (free : ∀ n, page.get n = none → resolved.get n = none ∧ children n = .absent)
    (taken : ∀ n child, page.get n = some child → ∃ oid, resolved.get n = some oid ∧
      Stored env s (children n) oid) :
    ∃ oid s', env.store.writeBranch s resolved = .ok (oid, s') ∧ env.store.Grows s s' ∧
      Stored env s' (.branch children) oid := by
  -- every identifier in the resolved branch is one of a stored child
  have each : ∀ n oid, resolved.get n = some oid → n < env.geometry.fanout ∧
      Stored env s (children n) oid := by
    intro n oid found
    cases slot : page.get n with
    | none => simp [(free n slot).1] at found
    | some child =>
      obtain ⟨oid', found', stored⟩ := taken n child slot
      cases found.symm.trans found'
      exact ⟨(page.get_valid slot).1, stored⟩
  obtain ⟨oid, s', written, validOid, ⟨read, readBack, same⟩, noLeaf, grows⟩ :=
    lawful.store.writeBranch s resolved fun child mem =>
      (each child.1 child.2 ((resolved.mem_entries_iff _).mp mem)).2.known
  have valid : ∀ child ∈ read.entries, child.1 < env.geometry.fanout ∧ child.2 ≠ [] := by
    rintro ⟨n, o⟩ mem
    have found := (same n).symm.trans ((read.mem_entries_iff _).mp mem)
    exact ⟨(each n o found).1, (each n o found).2.validOid.nonempty⟩
  refine ⟨oid, s', written, grows, validOid, ⟨read, valid⟩, ⟨?_, ?_⟩, fun n => ?_⟩
  · intro path
    obtain ⟨raw, leaf, missing⟩ := noLeaf
    simp [TrieEnv.tryReadLeaf, leaf, missing]
  · intro path
    simp [TrieEnv.readBranchStrict, readBack, TrieBranch.new_of_valid valid]
  · simp only [TrieBranch.get, same n]
    cases slot : page.get n with
    | none =>
      simp only [(free n slot).1]
      exact (free n slot).2
    | some child =>
      obtain ⟨o, found, stored⟩ := taken n child slot
      simp only [found]
      exact stored.grows grows

/-! ### Dirty pages -/

/-- Below a dirty page, a dirty page is the top of a dirty subtree. -/
theorem Dirty.page {p r : Path} (dirty : Dirty env s c t p) (below : p <+: r)
    (touched : (c.dirtyLeaves.get r).isSome = true ∨ (c.dirtyBranches.get r).isSome = true) :
    ∃ q, r = p ++ q ∧ Dirty env s c (t.sub q) r := by
  have notVacant : ∀ q, q <+: r → ¬ Vacant c q := by
    intro q inner vacant
    have none_ := vacant r inner
    simp [none_.dirtyLeaf, none_.dirtyBranch] at touched
  induction t generalizing p with
  | absent => exact dirty.elim
  | leaf page =>
    rcases eq_or_below_child below with rfl | ⟨n, deeper⟩
    · exact ⟨[], by simp, by simpa using dirty⟩
    · exact absurd (dirty.2 n) (notVacant _ deeper)
  | branch children ih =>
    rcases eq_or_below_child below with rfl | ⟨n, deeper⟩
    · exact ⟨[], by simp, by simpa using dirty⟩
    · obtain ⟨page, -, slots⟩ := dirty
      have slot := slots n
      split at slot
      · exact absurd slot.2 (notVacant _ deeper)
      · rcases slot with dirty | clean
        · obtain ⟨q, rfl, found⟩ := ih n dirty deeper
          exact ⟨n :: q, by simp, by simpa [Trie.sub] using found⟩
        · -- nothing below a clean page is dirty
          obtain ⟨noLeaf, noBranch⟩ := clean.notDirty deeper
          simp [noLeaf, noBranch] at touched

theorem Dirty.touched (dirty : Dirty env s c t p) :
    (c.dirtyLeaves.get p).isSome = true ∨ (c.dirtyBranches.get p).isSome = true := by
  cases t with
  | absent => exact dirty.elim
  | leaf page => exact Or.inl (by simp [dirty.1.dirtyLeaf])
  | branch children =>
    obtain ⟨page, held, -⟩ := dirty
    exact Or.inr (by simp [held.dirtyBranch])

theorem Dirty.leaf_of_get {c t p page} (dirty : Dirty env s c t p)
    (found : c.dirtyLeaves.get p = some page) : t = .leaf page := by
  cases t with
  | absent => exact dirty.elim
  | leaf page' =>
    cases found.symm.trans dirty.1.dirtyLeaf
    rfl
  | branch children =>
    obtain ⟨page', held, -⟩ := dirty
    rw [held.dirtyLeaf] at found
    cases found

theorem Dirty.branch_of_get {c t p page} (dirty : Dirty env s c t p)
    (found : c.dirtyBranches.get p = some page) :
    ∃ children, t = .branch children ∧ Slots env s c page children p := by
  cases t with
  | absent => exact dirty.elim
  | leaf page' =>
    rw [dirty.1.dirtyBranch] at found
    cases found
  | branch children =>
    obtain ⟨page', held, slots⟩ := dirty
    cases found.symm.trans held.dirtyBranch
    exact ⟨children, rfl, slots⟩

theorem Dirty.apart (dirty : Dirty env s c t []) (q) (leaf : (c.dirtyLeaves.get q).isSome = true) :
    c.dirtyBranches.get q = none := by
  obtain ⟨r, -, found⟩ := dirty.page nil_prefix (Or.inl leaf)
  cases shape : t.sub r with
  | absent =>
    rw [shape] at found
    exact found.elim
  | leaf page =>
    rw [shape] at found
    exact found.1.dirtyBranch
  | branch children =>
    rw [shape] at found
    obtain ⟨page, held, -⟩ := found
    simp [held.dirtyLeaf] at leaf

/-! ### Snapshots -/

namespace DirtyPageSet

variable {g : TrieGeometry}

theorem ofCursor_ok {c : TrieCursor g}
    (apart : ∀ q, (c.dirtyLeaves.get q).isSome = true → c.dirtyBranches.get q = none) :
    ∃ d, ofCursor c = .ok d ∧ d.rootOid = c.initialRootOid ∧ d.dirtyLeaves = c.dirtyLeaves ∧
      d.dirtyBranches = c.dirtyBranches ∧ d.cleanChildren = c.cleanChildren := by
  have disjoint : c.dirtyLeaves.keys.find? c.dirtyBranches.has = none := by
    refine List.find?_eq_none.mpr fun q mem => ?_
    simp [OrdMap.has, apart q ((OrdMap.mem_keys_iff _ _).mp mem)]
  unfold ofCursor
  split
  next path overlap => simp [disjoint] at overlap
  · exact ⟨_, rfl, rfl, rfl, rfl, rfl⟩

instance : Std.Total (bottomUp (g := g)) where
  total left right := by
    unfold bottomUp
    rcases Nat.lt_trichotomy left.1.length right.1.length with shorter | same | longer
    · exact Or.inr (Or.inl shorter)
    · rcases le_total left.1 right.1 with first | second
      · exact Or.inl (Or.inr ⟨same.symm, first⟩)
      · exact Or.inr (Or.inr ⟨same, second⟩)
    · exact Or.inl (Or.inl longer)

instance : IsTrans (DirtyPageEntry g) bottomUp where
  trans a b c first second := by
    unfold bottomUp at *
    rcases first with deeper | ⟨level, before⟩
    · rcases second with deeper' | ⟨level', -⟩
      · exact Or.inl (by omega)
      · exact Or.inl (by omega)
    · rcases second with deeper' | ⟨level', before'⟩
      · exact Or.inl (by omega)
      · exact Or.inr ⟨by omega, le_trans before before'⟩

section

variable (d : DirtyPageSet g)
include d

theorem mem_enumerateBottomUp :
    (q, node) ∈ d.enumerateBottomUp ↔
      (∃ page, node = .leaf page ∧ d.dirtyLeaves.get q = some page) ∨
      ∃ page, node = .branch page ∧ d.dirtyBranches.get q = some page := by
  rw [enumerateBottomUp, mem_insertionSort, collectAllEntries, mem_append, mem_map, mem_map]
  constructor
  · rintro (⟨entry, member, same⟩ | ⟨entry, member, same⟩)
    · cases same
      exact Or.inl ⟨entry.2, rfl, (OrdMap.mem_entries_iff _ _).mp member⟩
    · cases same
      exact Or.inr ⟨entry.2, rfl, (OrdMap.mem_entries_iff _ _).mp member⟩
  · rintro (⟨page, rfl, found⟩ | ⟨page, rfl, found⟩)
    · exact Or.inl ⟨(q, page), (OrdMap.mem_entries_iff _ _).mpr found, rfl⟩
    · exact Or.inr ⟨(q, page), (OrdMap.mem_entries_iff _ _).mpr found, rfl⟩

theorem nodup_enumerateBottomUp : (d.enumerateBottomUp.map Prod.fst).Nodup := by
  have perm : (d.enumerateBottomUp.map Prod.fst).Perm (d.dirtyLeaves.keys ++ d.dirtyBranches.keys) := by
    refine ((perm_insertionSort _ _).map Prod.fst).trans (List.Perm.of_eq ?_)
    simp [collectAllEntries, OrdMap.keys, Function.comp_def]
  refine perm.nodup_iff.mpr (nodup_append.mpr ⟨d.dirtyLeaves.nodup, d.dirtyBranches.nodup, ?_⟩)
  rintro q leaf _ branch rfl
  have free := d.apart q leaf
  rw [OrdMap.has, (OrdMap.mem_keys_iff _ _).mp branch] at free
  cases free

theorem sorted_enumerateBottomUp : d.enumerateBottomUp.Pairwise bottomUp :=
  pairwise_insertionSort _ _

theorem mem_paths (r) :
    ((d.dirtyLeaves.get r).isSome = true ∨ (d.dirtyBranches.get r).isSome = true) ↔
      r ∈ d.enumerateBottomUp.map Prod.fst := by
  rw [mem_map]
  constructor
  · rintro (leaf | branch)
    · obtain ⟨page, found⟩ := Option.isSome_iff_exists.mp leaf
      exact ⟨(r, .leaf page), d.mem_enumerateBottomUp.mpr (Or.inl ⟨page, rfl, found⟩), rfl⟩
    · obtain ⟨page, found⟩ := Option.isSome_iff_exists.mp branch
      exact ⟨(r, .branch page), d.mem_enumerateBottomUp.mpr (Or.inr ⟨page, rfl, found⟩), rfl⟩
  · rintro ⟨⟨q, node⟩, member, rfl⟩
    rcases d.mem_enumerateBottomUp.mp member with ⟨page, -, found⟩ | ⟨page, -, found⟩
    · exact Or.inl (by simp [found])
    · exact Or.inr (by simp [found])

theorem enumerate_of_empty (empty : d.isEmpty = true) : d.enumerateBottomUp = [] := by
  simp only [isEmpty, OrdMap.size, length_eq_zero_iff, Bool.decide_and, Bool.and_eq_true,
    decide_eq_true_eq] at empty
  simp [enumerateBottomUp, collectAllEntries, empty.1, empty.2]

end

theorem mem_of_deeper {d : DirtyPageSet g} (whole : d.enumerateBottomUp = done ++ entry :: rest)
    (mem : deeper ∈ d.enumerateBottomUp) (longer : entry.1.length < deeper.1.length) :
    deeper ∈ done := by
  have sorted := d.sorted_enumerateBottomUp
  rw [whole] at sorted mem
  rcases mem_append.mp mem with earlier | later
  · exact earlier
  · exfalso
    rcases mem_cons.mp later with rfl | later
    · omega
    · have order := (pairwise_cons.mp (pairwise_append.mp sorted).2.1).1 deeper later
      unfold bottomUp at order
      omega

end DirtyPageSet

/-! ### The flush -/

variable (env s) in
/-- A flush part of the way: the pages at the paths done so far are stored with all that
lies below them. -/
structure Flushed (t : Trie) (done : List Path) (state : FlushState S) : Prop where
  grows : env.store.Grows s state.store
  written : ∀ q ∈ done, ∃ o, state.newOidByPath.get q = some o ∧ Stored env state.store (t.sub q) o
  fresh : ∀ q, q ∉ done → state.newOidByPath.get q = none
  root : state.rootOid = state.newOidByPath.get []
  paths : state.writes.map Prod.fst = done
  resolved : ∀ q entries, (q, StoreWrite.branch entries) ∈ state.writes →
    ∀ child ∈ entries.entries, isPendingOid child.2 = false

theorem flushed_init (t) : Flushed env s t [] (createFlushState s) :=
  ⟨.refl, by simp, fun _ _ => rfl, rfl, rfl, by simp [createFlushState]⟩

theorem Flushed.record (flushed : Flushed env s t done state) (write)
    (grows : env.store.Grows state.store store) (stored : Stored env store (t.sub q) oid)
    (resolved : ∀ entries, write = .branch entries →
      ∀ child ∈ entries.entries, isPendingOid child.2 = false) :
    Flushed env s t (done ++ [q]) (state.record q oid store write) where
  grows := flushed.grows.trans grows
  written := by
    intro r mem
    by_cases same : r = q
    · subst same
      exact ⟨oid, by simp [FlushState.record], stored⟩
    · have earlier : r ∈ done := by simpa [same] using mem
      obtain ⟨o, found, kept⟩ := flushed.written r earlier
      exact ⟨o, by simp [FlushState.record, Ne.symm same, found], kept.grows grows⟩
  fresh := by
    intro r later
    rw [mem_append, mem_singleton, not_or] at later
    simp [FlushState.record, Ne.symm later.2, flushed.fresh r later.1]
  root := by
    by_cases top : q = []
    · simp [FlushState.record, top]
    · simp [FlushState.record, top, flushed.root]
  paths := by simp [FlushState.record, flushed.paths]
  resolved := by
    intro r entries mem
    simp only [FlushState.record, mem_append, mem_singleton, Prod.mk.injEq] at mem
    rcases mem with earlier | ⟨-, here⟩
    · exact flushed.resolved r entries earlier
    · exact resolved entries here.symm

theorem resolveBranchChildren_spec {P : Nat → Oid → Prop} (q)
    (cleanChildren newOidByPath entries out) (nodup : (entries.map Prod.fst).Nodup)
    (each : ∀ child ∈ entries, ∃ oid,
      resolveChildOid child.2 (q ++ [child.1]) cleanChildren newOidByPath = .ok oid ∧ P child.1 oid) :
    ∃ out', resolveBranchChildren q cleanChildren newOidByPath entries out = .ok out' ∧
      (∀ child ∈ entries, ∃ oid, out'.get child.1 = some oid ∧ P child.1 oid) ∧
      ∀ n, n ∉ entries.map Prod.fst → out'.get n = out.get n := by
  -- every child of a branch resolves to the identifier of a stored page
  induction entries generalizing out with
  | nil => exact ⟨out, rfl, by simp, fun _ _ => rfl⟩
  | cons child rest ih =>
    obtain ⟨n, original⟩ := child
    rw [map_cons, nodup_cons] at nodup
    obtain ⟨oid, resolves, holds⟩ := each (n, original) mem_cons_self
    obtain ⟨out', ok, found, others⟩ := ih (out.set n oid) nodup.2 fun child mem =>
      each child (mem_cons_of_mem _ mem)
    refine ⟨out', by simp [resolveBranchChildren, resolves, ok], ?_, ?_⟩
    · intro child mem
      rcases mem_cons.mp mem with rfl | mem
      · exact ⟨oid, by simp [others n nodup.1], holds⟩
      · exact found child mem
    · intro m later
      rw [map_cons, mem_cons, not_or] at later
      rw [others m later.2, OrdMap.get_set, if_neg (Ne.symm later.1)]

theorem processLeaf_spec (lawful : env.Lawful) (flushed : Flushed env s t done state)
    (shape : t.sub q = .leaf page) :
    ∃ state', processLeaf env q page state = .ok state' ∧ Flushed env s t (done ++ [q]) state' := by
  obtain ⟨bytes, oid, store, serialized, written, grows, stored⟩ :=
    writeLeaf_stored lawful
  have recorded := flushed.record (.leaf bytes) grows (shape ▸ stored)
    fun _ impossible => nomatch impossible
  refine ⟨{ state.record q oid store (.leaf bytes) with
      blobsWritten := state.blobsWritten + 1
      bytesWritten := state.bytesWritten + bytes.length },
    by simp only [processLeaf, serialized, written], ?_⟩
  exact ⟨recorded.grows, recorded.written, recorded.fresh, recorded.root, recorded.paths,
    recorded.resolved⟩

theorem processBranch_spec (lawful : env.Lawful) (flushed : Flushed env s t done state)
    (shape : t.sub q = .branch children) (slots : Slots env s c page children q)
    (clean : d.cleanChildren = c.cleanChildren)
    (below : ∀ n, Dirty env s c (children n) (q ++ [n]) → q ++ [n] ∈ done)
    (dirtyOnly : ∀ r ∈ done, (c.dirtyLeaves.get r).isSome = true ∨ (c.dirtyBranches.get r).isSome = true) :
    ∃ state', processBranch env q page d state = .ok state' ∧ Flushed env s t (done ++ [q]) state' := by
  have resolves : ∀ child ∈ page.children.entries, ∃ oid,
      resolveChildOid child.2 (q ++ [child.1]) d.cleanChildren state.newOidByPath = .ok oid ∧
        Stored env state.store (children child.1) oid := by
    rintro ⟨n, o⟩ mem
    have taken : page.get n = some o := (OrdMap.mem_entries_iff _ _).mp mem
    rcases slots.some taken with dirty | isClean
    · -- a dirty child was written before
      obtain ⟨oid, found, stored⟩ := flushed.written _ (below n dirty)
      rw [Trie.sub_append, shape] at stored
      exact ⟨oid, by simp [resolveChildOid, found], by simpa [Trie.sub] using stored⟩
    · -- a clean child was not, and keeps its identifier
      have notDone : q ++ [n] ∉ done := by
        intro mem
        obtain ⟨noLeaf, noBranch⟩ := isClean.notDirty prefix_rfl
        rcases dirtyOnly _ mem with dirty | dirty
        · simp [noLeaf] at dirty
        · simp [noBranch] at dirty
      have notPending := isClean.validOid.stored
      refine ⟨o, ?_, isClean.stored.grows flushed.grows⟩
      simp only [resolveChildOid, flushed.fresh _ notDone, clean]
      rcases isClean.cleanOid with none_ | same
      · simp [none_, notPending]
      · simp [same]
  obtain ⟨resolved, ok, found, others⟩ := resolveBranchChildren_spec
    (P := fun n oid => Stored env state.store (children n) oid) q d.cleanChildren
    state.newOidByPath page.children.entries .empty page.children.nodup resolves
  have free : ∀ n, page.get n = none → resolved.get n = none ∧ children n = .absent := by
    intro n unused
    refine ⟨?_, (slots.none unused).1⟩
    rw [others n ((assocGet_eq_none_iff _ n).mp unused)]
    rfl
  have taken : ∀ n child, page.get n = some child → ∃ oid, resolved.get n = some oid ∧
      Stored env state.store (children n) oid :=
    fun n child slot => found (n, child) ((OrdMap.mem_entries_iff _ _).mpr slot)
  obtain ⟨oid, store, written, grows, stored⟩ :=
    writeBranch_stored lawful free taken
  have recorded := flushed.record (.branch resolved) grows (shape ▸ stored) (by
    rintro entries same ⟨n, child⟩ mem
    cases same
    have held := (OrdMap.mem_entries_iff _ _).mp mem
    cases slot : page.get n with
    | none =>
      rw [(free n slot).1] at held
      cases held
    | some child' =>
      obtain ⟨oid', held', stored'⟩ := taken n child' slot
      cases held.symm.trans held'
      exact stored'.validOid.stored)
  refine ⟨{ state.record q oid store (.branch resolved) with treesWritten := state.treesWritten + 1 },
    by simp only [processBranch, ok, ok_bind, written]; rfl, ?_⟩
  exact ⟨recorded.grows, recorded.written, recorded.fresh, recorded.root, recorded.paths,
    recorded.resolved⟩

/-- The order in which a flush writes: nothing is written before a page below it. -/
def ChildrenFirst (writes : List (Path × StoreWrite)) : Prop :=
  writes.Pairwise fun earlier later => ¬ earlier.1 <+: later.1

def NoPlaceholder (writes : List (Path × StoreWrite)) : Prop :=
  ∀ q entries, (q, StoreWrite.branch entries) ∈ writes →
    ∀ child ∈ entries.entries, isPendingOid child.2 = false

theorem childrenFirst_of_paths {d : DirtyPageSet g}
    (paths : writes.map Prod.fst = d.enumerateBottomUp.map Prod.fst) : ChildrenFirst writes := by
  have sorted : (d.enumerateBottomUp.map Prod.fst).Pairwise fun a b => b.length ≤ a.length := by
    rw [pairwise_map]
    refine d.sorted_enumerateBottomUp.imp fun order => ?_
    unfold DirtyPageSet.bottomUp at order
    omega
  have apart : (d.enumerateBottomUp.map Prod.fst).Pairwise fun a b => a ≠ b := d.nodup_enumerateBottomUp
  have both := sorted.and apart
  rw [← paths, pairwise_map] at both
  exact both.imp fun order below => order.2 (below.eq_of_length_le order.1)

theorem flush_dirty (lawful : env.Lawful) (dirty : Dirty env s c t []) :
    ∃ d result s' writes, DirtyPageSet.ofCursor c = .ok d ∧
      TrieFlusher.flush env d s = .ok (result, s', writes) ∧ env.store.Grows s s' ∧
      (∃ o, result.rootOid = some o ∧ Stored env s' t o) ∧ ChildrenFirst writes ∧
      NoPlaceholder writes := by
  -- the flush of a cursor with dirty pages
  obtain ⟨d, snapshot, -, leaves, branches, clean⟩ := DirtyPageSet.ofCursor_ok dirty.apart
  have mem : ∀ r, ((c.dirtyLeaves.get r).isSome = true ∨ (c.dirtyBranches.get r).isSome = true) ↔
      r ∈ d.enumerateBottomUp.map Prod.fst := by
    intro r
    rw [← leaves, ← branches]
    exact d.mem_paths r
  have step : ∀ done entry rest state, d.enumerateBottomUp = done ++ entry :: rest →
      Flushed env s t (done.map Prod.fst) state →
      ∃ state', processEntry env d state entry = .ok state' ∧
        Flushed env s t ((done ++ [entry]).map Prod.fst) state' := by
    rintro done ⟨q, node⟩ rest state whole flushed
    rw [map_append, map_cons, map_nil]
    have here : (q, node) ∈ d.enumerateBottomUp := by simp [whole]
    obtain ⟨_, rfl, subtree⟩ := dirty.page nil_prefix
      ((mem q).mpr (mem_map_of_mem here))
    rcases d.mem_enumerateBottomUp.mp here with ⟨page, rfl, found⟩ | ⟨page, rfl, found⟩
    · rw [leaves] at found
      exact processLeaf_spec lawful flushed (subtree.leaf_of_get found)
    · rw [branches] at found
      obtain ⟨children, shape, slots⟩ := subtree.branch_of_get found
      refine processBranch_spec lawful flushed shape slots clean (fun n below => ?_) fun r earlier => ?_
      · -- the child is deeper, so the order puts it first
        obtain ⟨entry, there, same⟩ := mem_map.mp ((mem _).mp below.touched)
        rw [← same]
        refine mem_map_of_mem (DirtyPageSet.mem_of_deeper whole there ?_)
        simp [same]
      · refine (mem r).mpr ?_
        rw [whole, map_append]
        exact mem_append_left _ earlier
  obtain ⟨state, ok, flushed⟩ := foldlM_ok
    (R := fun done state => Flushed env s t (done.map Prod.fst) state) d.enumerateBottomUp step
    (flushed_init t)
  have root : [] ∈ d.enumerateBottomUp.map Prod.fst := (mem []).mp dirty.touched
  obtain ⟨o, found, stored⟩ := flushed.written [] root
  rw [Trie.sub_nil] at stored
  have rootOid := flushed.root.trans found
  have notEmpty : d.isEmpty = false := by
    rw [← Bool.not_eq_true]
    intro empty
    exact absurd root (by simp [d.enumerate_of_empty empty])
  have created : FlushResult.create state.rootOid state.blobsWritten state.treesWritten
      state.bytesWritten = .ok ⟨state.rootOid, state.blobsWritten, state.treesWritten,
        state.bytesWritten⟩ := by
    simp [FlushResult.create, rootOid, stored.validOid.nonempty]
  refine ⟨d, ⟨state.rootOid, state.blobsWritten, state.treesWritten, state.bytesWritten⟩,
    state.store, state.writes, snapshot, ?_, flushed.grows, ⟨o, rootOid, stored⟩,
    childrenFirst_of_paths flushed.paths, flushed.resolved⟩
  simp only [TrieFlusher.flush, notEmpty, ok, ok_bind, created]
  rfl

variable (env s) in
theorem flush_clean (clean : ∀ q, c.dirtyLeaves.get q = none ∧ c.dirtyBranches.get q = none)
    (rootOid : c.initialRootOid ≠ some []) :
    ∃ d result, DirtyPageSet.ofCursor c = .ok d ∧ TrieFlusher.flush env d s = .ok (result, s, []) ∧
      result.rootOid = c.initialRootOid := by
  have emptyOf : ∀ {V : Type} (m : OrdMap Path V), (∀ q, m.get q = none) → m.size = 0 := by
    intro V m none_
    refine length_eq_zero_iff.mpr (eq_nil_iff_forall_not_mem.mpr ?_)
    rintro ⟨q, v⟩ mem
    rw [OrdMap.mem_entries_iff, none_ q] at mem
    cases mem
  obtain ⟨d, snapshot, root, leaves, branches, -⟩ := DirtyPageSet.ofCursor_ok fun q _ => (clean q).2
  refine ⟨d, ⟨c.initialRootOid, 0, 0, 0⟩, snapshot, ?_, rfl⟩
  have empty : d.isEmpty = true := by
    simp [DirtyPageSet.isEmpty, leaves, branches, emptyOf _ fun q => (clean q).1,
      emptyOf _ fun q => (clean q).2]
  simp only [TrieFlusher.flush, empty, if_true, root, FlushResult.create, rootOid, if_false, ok_bind]
  rfl

theorem untouched_opened {rootOid} : Untouched (opened rootOid : TrieCursor g) [] :=
  fun _ _ => ⟨⟨rfl, rfl, rfl, rfl⟩, rfl⟩

theorem shows_opened {rootOid} (root : ∀ page, t ≠ .leaf page) (held : match rootOid with
      | none => t = .absent
      | some o => Stored env s t o) : Shows env s (opened rootOid) t :=
  ⟨fun _ => ⟨untouched_opened, held⟩, fun loaded => (nomatch loaded), root⟩

/-- Flushing stores what the cursor shows. -/
theorem flush_spec (lawful : env.Lawful) (shows_ : Shows env s c t) :
    ∃ d result s' writes, DirtyPageSet.ofCursor c = .ok d ∧
      TrieFlusher.flush env d s = .ok (result, s', writes) ∧ env.store.Grows s s' ∧
      result.rootOid ≠ some [] ∧ Shows env s' (opened result.rootOid) t ∧ ChildrenFirst writes ∧
      NoPlaceholder writes := by
  have ofClean : (∀ q, c.dirtyLeaves.get q = none ∧ c.dirtyBranches.get q = none) →
      (match c.initialRootOid with
        | none => t = .absent
        | some o => Stored env s t o) →
      ∃ d result s' writes, DirtyPageSet.ofCursor c = .ok d ∧
        TrieFlusher.flush env d s = .ok (result, s', writes) ∧ env.store.Grows s s' ∧
        result.rootOid ≠ some [] ∧ Shows env s' (opened result.rootOid) t ∧ ChildrenFirst writes ∧
        NoPlaceholder writes := by
    intro clean held
    have rootOid : c.initialRootOid ≠ some [] := by
      intro empty
      simp only [empty] at held
      exact held.validOid.nonempty rfl
    obtain ⟨d, result, snapshot, ok, root⟩ := flush_clean env s clean rootOid
    refine ⟨d, result, s, [], snapshot, ok, .refl, root ▸ rootOid, ?_, List.Pairwise.nil, by simp [NoPlaceholder]⟩
    rw [root]
    exact shows_opened shows_.root held
  cases loaded : c.rootLoaded with
  | false =>
    obtain ⟨untouched, held⟩ := shows_.unloaded loaded
    exact ofClean (fun q => ⟨(untouched q nil_prefix).1.dirtyLeaf,
      (untouched q nil_prefix).1.dirtyBranch⟩) held
  | true =>
    rcases shows_.loaded loaded with dirty | rest
    · obtain ⟨d, result, s', writes, snapshot, ok, grows, ⟨o, root, stored⟩, order, resolved⟩ :=
        flush_dirty lawful dirty
      refine ⟨d, result, s', writes, snapshot, ok, grows, ?_, ?_, order, resolved⟩
      · rw [root]
        intro empty
        exact stored.validOid.nonempty (Option.some.inj empty)
      · rw [root]
        exact shows_opened shows_.root stored
    · cases oid : c.initialRootOid with
      | none =>
        simp only [oid] at rest
        refine ofClean (fun q => ?_) (by simpa only [oid] using rest.1)
        have none_ := rest.2 q nil_prefix
        exact ⟨none_.dirtyLeaf, none_.dirtyBranch⟩
      | some o =>
        simp only [oid] at rest
        exact ofClean (fun q => rest.1.notDirty nil_prefix)
          (by simpa only [oid] using rest.1.stored)

end GitWarp
