import GitWarp.Trie.Interrupted

/-!
# Failed page reads

A call that a failed page read cuts has loaded some pages on its way, which changes what
the cursor holds and not what it shows. It is different in two places: the root counts as
loaded once its read was tried, and the walks that remove dots or compact change the pages
they have passed before they read the next one.
-/
namespace GitWarp

open Js Lib TrieCursor List Interruptible TrieState

variable {S : Type} {env : TrieEnv S} {s : S} {fails : Path → Option Failure}

/-! ### Behaviour -/

/-- The answers of a sequence of calls. -/
def TrieState.observe (st : TrieState env) : List TrieAction → Except Failure (List TrieAnswer)
  | [] => .ok []
  | action :: rest => do
    let (answer, next) ← st.call action
    let later ← next.observe rest
    pure (answer :: later)

/-- Every sequence of calls ends with the same answers in both states, or fails in both. -/
def TrieState.BehavesAs (st st' : TrieState env) : Prop :=
  ∀ actions, (st.observe actions).toOption = (st'.observe actions).toOption

theorem TrieAnswer.eq_of_answer {k : A → TrieAnswer} (same : answer x = answer y)
    (left : (x.map fun result => (k result.1, (⟨result.2, s⟩ : TrieState env))) = .ok r)
    (right : (y.map fun result => (k result.1, (⟨result.2, s'⟩ : TrieState env))) = .ok r') :
    r.1 = r'.1 := by
  cases x with
  | error e => cases left
  | ok a =>
    cases y with
    | error e => cases right
    | ok b =>
      cases left
      cases right
      exact congrArg k (Except.ok.inj same)

theorem TrieAnswer.eq_of_nothing {A : Type} {h h' : A → TrieState env} {x y : Except Failure A}
    (left : (x.map fun c => (TrieAnswer.nothing, h c)) = .ok r)
    (right : (y.map fun c => (TrieAnswer.nothing, h' c)) = .ok r') : r.1 = r'.1 := by
  cases x with
  | error e => cases left
  | ok a =>
    cases y with
    | error e => cases right
    | ok b =>
      cases left
      cases right
      rfl

variable {page : TrieBranch env.geometry} {next : TrieCursor env.geometry × List Path}
  {c c' : TrieCursor env.geometry} {e : Failure} {p : Path} {t : Trie}

theorem answers_of_holds {st st' : TrieState env} (left : st.Holds t) (right : st'.Holds t)
    (here : st.call action = .ok r) (there : st'.call action = .ok r') : r.1 = r'.1 := by
  cases action with
  | add element dot | remove observedDots | removeElement element observedDots
  | compact includedVV | flush | checkpoint => exact TrieAnswer.eq_of_nothing here there
  | contains element =>
    apply TrieAnswer.eq_of_answer ?_ here there
    rw [contains_answer left.shown, contains_answer right.shown]
  | getDots element =>
    apply TrieAnswer.eq_of_answer ?_ here there
    rw [getDots_answer left.shown, getDots_answer right.shown]
  | getElementState element =>
    apply TrieAnswer.eq_of_answer ?_ here there
    rw [getElementState_answer left.shown, getElementState_answer right.shown]
  | scan | scanElementStates =>
    apply TrieAnswer.eq_of_answer ?_ here there
    exact (scanWith_answer _ left.shown left.fits).trans
      (scanWith_answer _ right.shown right.fits).symm

theorem call_of_holds (lawful : env.Lawful) {st st' : TrieState env} (left : st.Holds t)
    (right : st'.Holds t) (action) :
    Agree (fun _ _ => True) (fun r r' => r.1 = r'.1 ∧ ∃ u, r.2.Holds u ∧ r'.2.Holds u)
      (st.call action) (st'.call action) := by
  have performed := (perform_spec lawful left action).fork
    (perform_spec lawful right action)
  rw [← call_perform, ← call_perform] at performed
  cases here : st.call action with
  | error e =>
    cases there : st'.call action with
    | error e' => trivial
    | ok r' =>
      rw [here, there] at performed
      exact performed.elim
  | ok r =>
    cases there : st'.call action with
    | error e' =>
      rw [here, there] at performed
      exact performed.elim
    | ok r' =>
      rw [here, there] at performed
      exact ⟨answers_of_holds left right here there, performed⟩

theorem behavesAs_of_holds (lawful : env.Lawful) {st st' : TrieState env} (left : st.Holds t)
    (right : st'.Holds t) : st.BehavesAs st' := by
  intro actions
  induction actions generalizing st st' t with
  | nil => rfl
  | cons action rest ih =>
    have both := call_of_holds lawful left right action
    simp only [TrieState.observe]
    cases here : st.call action with
    | error e =>
      cases there : st'.call action with
      | error e' => rfl
      | ok r' =>
        rw [here, there] at both
        exact both.elim
    | ok r =>
      cases there : st'.call action with
      | error e' =>
        rw [here, there] at both
        exact both.elim
      | ok r' =>
        rw [here, there] at both
        obtain ⟨same, u, left', right'⟩ := both
        have later := ih left' right'
        simp only [ok_bind, same]
        cases first : r.2.observe rest with
        | error e =>
          cases second : r'.2.observe rest with
          | error e' => rfl
          | ok answers =>
            rw [first, second] at later
            cases later
        | ok answers =>
          cases second : r'.2.observe rest with
          | error e' =>
            rw [first, second] at later
            cases later
          | ok answers' =>
            rw [first, second] at later
            cases later
            rfl

/-! ### Loading a page, or failing to -/

variable (levels : Nat)

namespace TrieCursor.Interrupted

theorem ensureChildLoaded_cut (cut : ensureChildLoaded env s fails c p n o = .readFailed e c') :
    c' = c := by
  unfold ensureChildLoaded at cut
  dsimp only at cut
  split at cut
  · cases cut
  · split at cut
    · cases cut
    · unfold loadChildFromStore at cut
      split at cut
      · cases cut
        rfl
      · cases cut
      · split at cut
        · cases cut
          rfl
        · cases cut

variable (fails) in
theorem ensureChildLoaded_cases (shown : Shown env s c t (p ++ [n]) o) :
    (∃ c', ensureChildLoaded env s fails c p n o = .done t.kind c' ∧ Loaded env s c' t (p ++ [n]) ∧
      Keeps env s c c' t (p ++ [n]) o) ∨
    ∃ e, ensureChildLoaded env s fails c p n o = .readFailed e c := by
  obtain ⟨c', plain, loaded, keeps, -⟩ := ensureChildLoaded_spec shown
  have follows : (ensureChildLoaded env s fails c p n o).Follows (Quiet fails) Prod.mk _ :=
    ensureChildLoaded_follows
  cases result : ensureChildLoaded env s fails c p n o with
  | done kind c1 =>
    rw [result] at follows
    cases plain.symm.trans follows
    exact Or.inl ⟨_, rfl, loaded, keeps⟩
  | threw e =>
    rw [result] at follows
    cases plain.symm.trans follows
  | readFailed e c1 =>
    obtain rfl := ensureChildLoaded_cut result
    exact Or.inr ⟨e, rfl⟩

/-! ### Calls that read before they write -/

theorem descendForLookup_cut (remaining) (c children) (p depth)
    (loaded : Loaded env s c (.branch children) p)
    (cut : descendForLookup env s fails route element remaining c p depth = .readFailed e c') :
    ∀ o, Keeps env s c c' (.branch children) p o := by
  induction remaining generalizing c children p depth with
  | zero => cases cut
  | succ remaining ih =>
    obtain ⟨page, -, present, slots⟩ := loaded.branch
    simp only [descendForLookup, present] at cut
    obtain ⟨nibble, -, cut⟩ := given_eq_readFailed cut
    cases taken : page.get nibble with
    | none =>
      rw [taken] at cut
      cases cut
    | some child =>
      rw [taken] at cut
      dsimp only at cut
      rcases ensureChildLoaded_cases fails (slots.some taken) with
        ⟨c1, ok, childLoaded, keeps⟩ | ⟨e1, failed⟩
      · rw [ok] at cut
        cases shape : children nibble with
        | absent => exact absurd shape (slots.some taken).ne_absent
        | leaf page' =>
          rw [shape] at cut
          cases cut
        | branch below =>
          rw [shape] at cut childLoaded keeps
          have later := ih c1 below (p ++ [nibble]) (depth + 1) childLoaded cut
          have both := keeps.trans (later child)
          rw [← shape] at both
          exact fun o => both.parent present taken
      · rw [failed] at cut
        cases cut
        exact fun o => .refl ..

theorem insertBelowBranch_cut (ctx) (remaining) (c children) (p depth)
    (loaded : Loaded env s c (.branch children) p)
    (cut : insertBelowBranch env s fails ctx remaining c p depth = .readFailed e c') :
    ∀ o, Keeps env s c c' (.branch children) p o := by
  induction remaining generalizing c children p depth with
  | zero =>
    obtain ⟨_, -, cut⟩ := given_eq_readFailed cut
    obtain ⟨_, -, cut⟩ := given_eq_readFailed cut
    cases cut
  | succ remaining ih =>
    obtain ⟨page, -, present, slots⟩ := loaded.branch
    obtain ⟨branch, required, cut⟩ := given_eq_readFailed cut
    obtain rfl : page = branch := by
      simp only [requireBranchAt, present] at required
      exact Except.ok.inj required
    obtain ⟨nibble, -, cut⟩ := given_eq_readFailed cut
    cases taken : page.get nibble with
    | none =>
      rw [taken] at cut
      exact absurd cut step_ne_readFailed
    | some child =>
      rw [taken] at cut
      dsimp only at cut
      rcases ensureChildLoaded_cases fails (slots.some taken) with
        ⟨c1, ok, childLoaded, keeps⟩ | ⟨e1, failed⟩
      · rw [ok] at cut
        cases shape : children nibble with
        | absent => exact absurd shape (slots.some taken).ne_absent
        | leaf page' =>
          rw [shape] at cut
          exact absurd cut step_ne_readFailed
        | branch below =>
          rw [shape] at childLoaded keeps
          simp only [shape, Trie.kind, done_bind] at cut
          rcases bind_eq_readFailed cut with deeper | ⟨_, below', -, rebound⟩
          · have later := ih c1 below (p ++ [nibble]) (depth + 1) childLoaded deeper
            have both := keeps.trans (later child)
            rw [← shape] at both
            exact fun o => both.parent present taken
          · -- rebinding the parents on the way back reads nothing
            exact absurd rebound step_ne_readFailed
      · rw [failed] at cut
        cases cut
        exact fun o => .refl ..

/-- What a loop over the children of a branch keeps, where it only loads pages. -/
structure Passing (env : TrieEnv S) (s : S) (c : TrieCursor env.geometry)
    (page : TrieBranch env.geometry) (children : Nat → Trie) (p : Path)
    (c' : TrieCursor env.geometry) : Prop where
  present : c'.branchAt p = some page
  slots : Slots env s c' page children p
  keeps : ∀ o, Keeps env s c c' (.branch children) p o

theorem Passing.refl (present : c.branchAt p = some page) (slots : Slots env s c page children p) :
    Passing env s c page children p c :=
  ⟨present, slots, fun _ => .refl ..⟩

theorem Passing.step (passing : Passing env s c page children p c1)
    (taken : page.get n = some child) (keeps : Keeps env s c1 c2 (children n) (p ++ [n]) child) :
    Passing env s c page children p c2 where
  present := keeps.frame.self.branchAt.trans passing.present
  slots := passing.slots.keeps taken keeps
  keeps := fun o => (passing.keeps o).trans (keeps.parent passing.present taken)

theorem scanBelow_leaves {yieldOf : TrieLeaf → Except Failure (List A)} (levels) (c) (t p)
    (fits : t.Fits levels) (loaded : Loaded env s c t p) :
    (scanBelow env s fails yieldOf levels c p).Leaves fun c' => ∀ o, Keeps env s c c' t p o := by
  induction levels generalizing c t p with
  | zero => trivial
  | succ levels ih =>
    cases t with
    | absent => exact loaded.elim
    | leaf leaf =>
      have there : c.leafAt p = some leaf := loaded
      simp only [scanBelow, there]
      exact .given fun _ o => .refl ..
    | branch children =>
      obtain ⟨page, noLeaf, present, slots⟩ := loaded.branch
      simp only [scanBelow, noLeaf, present]
      refine (Leaves.fold (P := Passing env s c page children p) _ ?_ [] c
        (.refl present slots)).mono fun _ => Passing.keeps
      intro acc nibble c1 _ passing
      cases taken : page.get nibble with
      | none => exact passing
      | some child =>
        rcases ensureChildLoaded_cases fails (passing.slots.some taken) with
          ⟨c2, ok, childLoaded, keeps⟩ | ⟨e, failed⟩
        · simp only [ok, done_bind]
          have below := ih c2 (children nibble) (p ++ [nibble]) (fits.2 nibble) childLoaded
          exact (below.mono fun c3 kept => passing.step taken (keeps.trans (kept child))).bind
            fun _ _ => id
        · simp only [failed, readFailed_bind]
          exact passing

/-! ### Walks over all pages -/

variable (env s fails) in
/-- The bare walk of `remove` and `compact`, which changes nothing. It lists the paths of the
subtrees that it has left behind. -/
def walkBelow : Nat → TrieCursor env.geometry → Path →
    Interruptible Failure (TrieCursor env.geometry × List Path) Unit
  | 0, _, path => .threw (walkTooDeep path)
  | levels + 1, c, path =>
    match c.leafAt path with
    | some _ => .done () (c, [])
    | none =>
      match c.branchAt path with
      | none => .done () (c, [])
      | some branch =>
        Interruptible.fold (fun _ child walked =>
          match ensureChildLoaded env s fails walked.1 path child.1 child.2 with
          | .threw e => .threw e
          | .readFailed e c => .readFailed e (c, walked.2)
          | .done _ loaded =>
            match walkBelow levels loaded (path ++ [child.1]) with
            | .threw e => .threw e
            | .readFailed e next => .readFailed e (next.1, walked.2 ++ next.2)
            | .done _ next => .done () (next.1, walked.2 ++ [path ++ [child.1]]))
          () branch.children.entries (c, [])

variable (env s fails) in
/-- The body of the loop of the walk. -/
def walkChild (levels : Nat) (path : Path) (child : Nat × Oid)
    (walked : TrieCursor env.geometry × List Path) :
    Interruptible Failure (TrieCursor env.geometry × List Path) Unit :=
  match ensureChildLoaded env s fails walked.1 path child.1 child.2 with
  | .threw e => .threw e
  | .readFailed e c => .readFailed e (c, walked.2)
  | .done _ loaded =>
    match walkBelow env s fails levels loaded (path ++ [child.1]) with
    | .threw e => .threw e
    | .readFailed e next => .readFailed e (next.1, walked.2 ++ next.2)
    | .done _ next => .done () (next.1, walked.2 ++ [path ++ [child.1]])

theorem walkBelow_branch (noLeaf : c.leafAt p = none) (present : c.branchAt p = some page) :
    walkBelow env s fails (levels + 1) c p =
      Interruptible.fold (fun _ child => walkChild env s fails levels p child) ()
        page.children.entries (c, []) := by
  simp only [walkBelow, noLeaf, present]
  rfl

variable (fails) in
theorem walkChild_cases (shown : Shown env s c t (p ++ [n]) o) :
    (∃ e, ensureChildLoaded env s fails c p n o = .readFailed e c ∧
      walkChild env s fails levels p (n, o) (c, finished) = .readFailed e (c, finished)) ∨
    ∃ c1, ensureChildLoaded env s fails c p n o = .done t.kind c1 ∧ Loaded env s c1 t (p ++ [n]) ∧
      Keeps env s c c1 t (p ++ [n]) o ∧
      ((∃ e, walkBelow env s fails levels c1 (p ++ [n]) = .threw e ∧
        walkChild env s fails levels p (n, o) (c, finished) = .threw e) ∨
      (∃ e next, walkBelow env s fails levels c1 (p ++ [n]) = .readFailed e next ∧
        walkChild env s fails levels p (n, o) (c, finished) =
          .readFailed e (next.1, finished ++ next.2)) ∨
      ∃ next, walkBelow env s fails levels c1 (p ++ [n]) = .done () next ∧
        walkChild env s fails levels p (n, o) (c, finished) =
          .done () (next.1, finished ++ [p ++ [n]])) := by
  rcases ensureChildLoaded_cases fails shown with ⟨c1, ok, loaded, keeps⟩ | ⟨e, failed⟩
  · refine Or.inr ⟨c1, ok, loaded, keeps, ?_⟩
    cases walked : walkBelow env s fails levels c1 (p ++ [n]) with
    | threw e => exact Or.inl ⟨e, rfl, by simp only [walkChild, ok, walked]⟩
    | readFailed e next =>
      exact Or.inr (Or.inl ⟨e, next, rfl, by simp only [walkChild, ok, walked]⟩)
    | done _ next => exact Or.inr (Or.inr ⟨next, rfl, by simp only [walkChild, ok, walked]⟩)
  · exact Or.inl ⟨e, failed, by simp only [walkChild, failed]⟩

/-- The bare walk keeps what is shown, however it ends. -/
theorem walkBelow_keeps (c) (t p) (loaded : Loaded env s c t p) :
    (walkBelow env s fails levels c p).Leaves fun next => ∀ o, Keeps env s c next.1 t p o := by
  induction levels generalizing c t p with
  | zero => trivial
  | succ levels ih =>
    cases t with
    | absent => exact loaded.elim
    | leaf leaf =>
      have there : c.leafAt p = some leaf := loaded
      simp only [walkBelow, there]
      exact fun o => .refl ..
    | branch children =>
      obtain ⟨page, noLeaf, present, slots⟩ := loaded.branch
      rw [walkBelow_branch levels noLeaf present]
      refine (Leaves.fold (P := fun walked => Passing env s c page children p walked.1) _ ?_ ()
        (c, []) (.refl present slots)).mono fun _ => Passing.keeps
      rintro _ ⟨n, child⟩ ⟨c1, finished⟩ mem passing
      have taken : page.get n = some child := (OrdMap.mem_entries_iff _ _).mp mem
      rcases walkChild_cases fails levels (passing.slots.some taken) with
        ⟨e, -, same⟩ | ⟨c2, -, childLoaded, keeps, ended⟩
      · rw [same]
        exact passing
      · have below := ih c2 (children n) (p ++ [n]) childLoaded
        rcases ended with ⟨e, -, same⟩ | ⟨e, next, cut, same⟩ | ⟨next, walked, same⟩ <;> rw [same]
        · trivial
        · exact passing.step taken (keeps.trans (below.of_cut cut child))
        · exact passing.step taken (keeps.trans (below.of_done walked child))

theorem walkChild_eq_done {after} (shown : Shown env s c t (p ++ [n]) o)
    (ended : walkChild env s fails levels p (n, o) (c, finished) = .done () after) :
    ∃ c1 next, ensureChildLoaded env s fails c p n o = .done t.kind c1 ∧
      Loaded env s c1 t (p ++ [n]) ∧ walkBelow env s fails levels c1 (p ++ [n]) = .done () next ∧
      Keeps env s c next.1 t (p ++ [n]) o ∧ after = (next.1, finished ++ [p ++ [n]]) := by
  rcases walkChild_cases fails levels shown with ⟨e, -, same⟩ | ⟨c1, ok, loaded, keeps,
    ⟨e, -, same⟩ | ⟨e, next, -, same⟩ | ⟨next, walked, same⟩⟩ <;> rw [same] at ended <;> cases ended
  have below := (walkBelow_keeps levels c1 t (p ++ [n]) loaded).of_done walked o
  exact ⟨c1, next, ok, loaded, walked, keeps.trans below, rfl⟩

/-! ### Operations that walk over all pages -/

variable (env s fails) in
/-- One child of a branch, in an operation that walks over all pages. -/
def visitChild {A B : Type} (visit : TrieCursor env.geometry → Path → CursorCall env A)
    (combine : B → Nat → A → B) (path : Path) (acc : B) (child : Nat × Oid)
    (c : TrieCursor env.geometry) : CursorCall env B :=
  (ensureChildLoaded env s fails c path child.1 child.2).bind fun _ loaded =>
    (visit loaded (path ++ [child.1])).bind fun a next => .done (combine acc child.1 a) next

variable (env s fails) in
/-- An operation that visits the children of a branch in the order of its page. -/
structure Visitor (A B : Type) where
  visit : Nat → TrieCursor env.geometry → Path → CursorCall env A
  init : B
  combine : B → Nat → A → B
  finish : Path → TrieBranch env.geometry → B → TrieCursor env.geometry → CursorCall env A
  branch : ∀ levels c p page, c.leafAt p = none → c.branchAt p = some page →
    visit (levels + 1) c p =
      (Interruptible.fold (visitChild env s fails (visit levels) combine p) init
        page.children.entries c).bind (finish p page)

/-- A settled subtree is one that the operation leaves as it is. `reports` relates what the
operation returns to the subtree, and `gathered` what it has gathered to the children done. -/
structure Visitor.Spares {A B : Type} (v : Visitor env s fails A B) (settled : Trie → Prop)
    (reports : A → Trie → Prop) (gathered : B → List Nat → (Nat → Trie) → Prop) : Prop where
  leaf : ∀ levels c p page, c.leafAt p = some page → settled (.leaf page) →
    ∃ a, v.visit (levels + 1) c p = .done a c ∧ reports a (.leaf page)
  child : ∀ children, settled (.branch children) → ∀ n, settled (children n)
  init : ∀ children, gathered v.init [] children
  combine : ∀ acc done children n a, gathered acc done children → n ∉ done →
    reports a (children n) → gathered (v.combine acc n a) (done ++ [n]) children
  finish : ∀ children p page acc c, settled (.branch children) → p ≠ [] →
    (∀ n, page.get n = none ↔ children n = .absent) →
    gathered acc (page.children.entries.map Prod.fst) children →
    ∃ a, v.finish p page acc c = .done a c ∧ reports a (.branch children)

section

variable {A B : Type} {v : Visitor env s fails A B} {settled : Trie → Prop}
  {reports : A → Trie → Prop} {gathered : B → List Nat → (Nat → Trie) → Prop}

/-- Over a settled subtree the operation only loads what the bare walk loads. -/
theorem Visitor.Spares.visit (spares : v.Spares settled reports gathered) {levels} (c) (t p)
    (loaded : Loaded env s c t p) (below : p ≠ []) (still : settled t)
    (walked : walkBelow env s fails levels c p = .done () next) :
    ∃ a, v.visit levels c p = .done a next.1 ∧ reports a t := by
  induction levels generalizing c t p next with
  | zero => cases walked
  | succ levels ih =>
    cases t with
    | absent => exact loaded.elim
    | leaf leaf =>
      have there : c.leafAt p = some leaf := loaded
      simp only [walkBelow, there] at walked
      cases walked
      exact spares.leaf levels c p leaf there still
    | branch children =>
      obtain ⟨page, noLeaf, present, slots⟩ := loaded.branch
      rw [walkBelow_branch levels noLeaf present] at walked
      rw [v.branch levels c p page noLeaf present]
      -- both loops side by side, from any point on
      have loops : ∀ items done acc c1 finished, page.children.entries = done ++ items →
          Passing env s c page children p c1 → gathered acc (done.map Prod.fst) children →
          Interruptible.fold (fun _ child => walkChild env s fails levels p child) () items
            (c1, finished) = .done () next →
          ∃ acc', Interruptible.fold (visitChild env s fails (v.visit levels) v.combine p) acc items
            c1 = .done acc' next.1 ∧
            gathered acc' (page.children.entries.map Prod.fst) children := by
        intro items
        induction items with
        | nil =>
          intro done acc c1 finished whole _ held ended
          cases ended
          rw [whole, append_nil]
          exact ⟨acc, rfl, held⟩
        | cons first rest later =>
          obtain ⟨n, child⟩ := first
          intro done acc c1 finished whole passing held ended
          obtain ⟨taken, fresh⟩ := Trie.fresh_of_entries whole
          obtain ⟨_, ⟨c2, finished'⟩, here, ended⟩ := bind_eq_done ended
          dsimp only at here
          obtain ⟨c3, next', ok, childLoaded, walkedBelow, kept, same⟩ :=
            walkChild_eq_done levels (passing.slots.some taken) here
          cases same
          obtain ⟨a, visited, report⟩ := ih c3 (children n) (p ++ [n]) childLoaded (by simp)
            (spares.child children still n) walkedBelow
          obtain ⟨acc', folded, all⟩ := later (done ++ [(n, child)]) (v.combine acc n a) next'.1 _
            (by rw [whole]; simp) (passing.step taken kept)
            (by simpa using spares.combine acc _ children n a held fresh report) ended
          refine ⟨acc', ?_, all⟩
          rw [Interruptible.fold, visitChild, ok, done_bind, visited]
          exact folded
      obtain ⟨acc, folded, held⟩ := loops page.children.entries [] v.init c [] rfl
        (.refl present slots) (spares.init children) walked
      have absent : ∀ n, page.get n = none ↔ children n = .absent := by
        intro n
        refine ⟨fun free => (slots.none free).1, fun gone => ?_⟩
        cases taken : page.get n with
        | none => rfl
        | some child => exact absurd gone (slots.some taken).ne_absent
      obtain ⟨a, finished, report⟩ := spares.finish children p page acc next.1 still below absent held
      refine ⟨a, ?_, report⟩
      rw [folded, done_bind, finished]

theorem walkChild_fold_subset (p) (finished)
    (cut : Interruptible.fold (fun _ child => walkChild env s fails levels p child) () items
      (c, finished) = .readFailed e next) : finished ⊆ next.2 := by
  refine (Leaves.fold (P := fun walked => finished ⊆ walked.2) items ?_ () (c, finished)
    (List.Subset.refl finished)).of_cut cut
  intro _ child walked _ subset
  unfold walkChild
  split
  · trivial
  · exact subset
  · split
    · trivial
    · exact List.Subset.trans subset (subset_append_left _ _)
    · exact List.Subset.trans subset (subset_append_left _ _)

/-- Where every subtree left behind is settled, the operation is cut where the bare walk is, with
the same cursor. -/
theorem Visitor.Spares.cut (spares : v.Spares settled reports gathered) (whole : Trie) (levels) (c)
    (t p) (here : whole.sub p = t) (loaded : Loaded env s c t p)
    (walked : walkBelow env s fails levels c p = .readFailed e next)
    (still : ∀ q ∈ next.2, settled (whole.sub q)) : v.visit levels c p = .readFailed e next.1 := by
  induction levels generalizing c t p e next with
  | zero => cases walked
  | succ levels ih =>
    cases t with
    | absent => exact loaded.elim
    | leaf leaf =>
      have there : c.leafAt p = some leaf := loaded
      simp only [walkBelow, there] at walked
      cases walked
    | branch children =>
      obtain ⟨page, noLeaf, present, slots⟩ := loaded.branch
      rw [walkBelow_branch levels noLeaf present] at walked
      rw [v.branch levels c p page noLeaf present]
      have subChild : ∀ n, whole.sub (p ++ [n]) = children n := by
        intro n
        simp [Trie.sub_append, here, Trie.sub]
      have loops : ∀ items done acc c1 finished, page.children.entries = done ++ items →
          Passing env s c page children p c1 →
          Interruptible.fold (fun _ child => walkChild env s fails levels p child) () items
            (c1, finished) = .readFailed e next →
          Interruptible.fold (visitChild env s fails (v.visit levels) v.combine p) acc items c1 =
            .readFailed e next.1 := by
        intro items
        induction items with
        | nil =>
          intro done acc c1 finished _ _ ended
          cases ended
        | cons first rest later =>
          obtain ⟨n, child⟩ := first
          intro done acc c1 finished split passing ended
          obtain ⟨taken, -⟩ := Trie.fresh_of_entries split
          rcases bind_eq_readFailed ended with here | ⟨_, after, here, ended⟩
          · rcases walkChild_cases fails levels (passing.slots.some taken) with
              ⟨e1, failed, same⟩ | ⟨c3, ok, childLoaded, -, ⟨e1, -, same⟩ |
                ⟨e1, next', deeper, same⟩ | ⟨next', -, same⟩⟩ <;> dsimp only at here <;>
              rw [same] at here <;> cases here
            · -- the read of this child failed
              rw [Interruptible.fold, visitChild, failed]
              rfl
            · -- a read below this child failed
              have visited := ih c3 (children n) (p ++ [n]) (subChild n) childLoaded deeper
                fun q mem => still q (mem_append_right _ mem)
              rw [Interruptible.fold, visitChild, ok, done_bind, visited]
              rfl
          · -- this child is left behind
            obtain ⟨c3, next', ok, childLoaded, walkedBelow, kept, same⟩ :=
              walkChild_eq_done levels (passing.slots.some taken) here
            cases same
            have inside : p ++ [n] ∈ next.2 :=
              walkChild_fold_subset levels p _ ended (by simp)
            obtain ⟨a, visited, -⟩ := spares.visit c3 (children n) (p ++ [n]) childLoaded
              (by simp) (subChild n ▸ still _ inside) walkedBelow
            rw [Interruptible.fold, visitChild, ok, done_bind, visited]
            exact later (done ++ [(n, child)]) (v.combine acc n a) next'.1 _
              (by rw [split]; simp) (passing.step taken kept) ended
      rw [loops page.children.entries [] v.init c [] rfl (.refl present slots) walked]
      rfl

end

/-! ### Removing and compacting -/

/-- No leaf of the subtree has one of the dots alive. -/
def Unmarked (observedDots : OrdSet JsString) : Trie → Prop
  | .absent => True
  | .leaf page => rewriteLeafWithTombstones page observedDots = none
  | .branch children => ∀ n, Unmarked observedDots (children n)

/-- Compacting changes no leaf of the subtree, and no branch of it merges, collapses or goes. -/
def Compact (g : TrieGeometry) (includedVV : VersionVector) : Trie → Prop
  | .absent => True
  | .leaf page => ∃ entries, compactLeafEntries includedVV page.entries = .ok (false, entries)
  | .branch children => (∀ n, Compact g includedVV (children n)) ∧
      findMergePair g (fun n => (children n).leaf?) (List.range g.fanout) = none ∧
      (∃ n, children n ≠ .absent) ∧
      ∀ n page, children n = .leaf page → ∃ m, m ≠ n ∧ children m ≠ .absent

theorem bind_done_unit (x : Interruptible E C Unit) : (x.bind fun _ c => .done () c) = x := by
  cases x <;> rfl

variable (env s fails) in
def tombstoneVisitor (observedDots : OrdSet JsString) : Visitor env s fails Unit Unit where
  visit := tombstoneBelow env s fails observedDots
  init := ()
  combine := fun _ _ _ => ()
  finish := fun _ _ _ c => .done () c
  branch := by
    intro levels c p page noLeaf present
    simp only [tombstoneBelow, noLeaf, present]
    rw [bind_done_unit]
    congr 1
    funext _ child c
    simp only [visitChild, bind_done_unit]

theorem tombstoneVisitor_spares :
    (tombstoneVisitor env s fails observedDots).Spares (Unmarked observedDots)
      (fun _ _ => True) fun _ _ _ => True where
  leaf := by
    intro levels c p page there still
    have unchanged : rewriteLeafWithTombstones page observedDots = none := still
    refine ⟨(), ?_, trivial⟩
    simp only [tombstoneVisitor, tombstoneBelow, there, tombstoneInLeaf, unchanged]
    rfl
  child := fun children still n => still n
  init := fun _ => trivial
  combine := fun _ _ _ _ _ _ _ _ => trivial
  finish := fun _ _ _ _ _ _ _ _ _ => ⟨(), rfl, trivial⟩

variable (env s fails) in
def compactVisitor (includedVV : VersionVector) :
    Visitor env s fails (NodeState env.geometry) (ChildStates env.geometry) where
  visit := compactBelow env s fails includedVV
  init := .empty
  combine := fun states n state => states.set n state
  finish := fun p page states c =>
    let changed := states.values.any fun state => state.changed || state.isAbsent
    .stepWith (do
      let (c, states, merged) ← mergeSiblingLeaves p env.geometry.fanout c states false
      c.rewriteBranch p page states (changed || merged))
  branch := by
    intro levels c p page noLeaf present
    simp only [compactBelow, noLeaf, present]
    rfl

/-- The report on a subtree that compacting leaves as it is. -/
structure Still {g : TrieGeometry} (state : NodeState g) (t : Trie) : Prop where
  unchanged : state.changed = false
  there : state.isAbsent = false
  leaf : state.leaf? = t.leaf?

/-- The reports on the children done, all of which stay as they are. -/
structure AllStill {g : TrieGeometry} (states : ChildStates g) (done : List Nat)
    (children : Nat → Trie) : Prop where
  some : ∀ n ∈ done, ∃ state, states.get n = some state ∧ Still state (children n)
  none : ∀ n, n ∉ done → states.get n = none

theorem rewriteBranch_still (compact : Compact env.geometry includedVV (.branch children))
    (below : p ≠ []) (slots : ∀ n, page.get n = none ↔ children n = .absent)
    (still : AllStill states (page.children.entries.map Prod.fst) children)
    (c : TrieCursor env.geometry) :
    c.rewriteBranch p page states false = .ok (.branch false page, c) := by
  obtain ⟨-, -, ⟨n, there⟩, notAlone⟩ := compact
  have taken : ∀ n child, page.get n = some child → ∃ state, states.get n = some state ∧
      Still state (children n) := by
    intro n child found
    exact still.some n (mem_map_of_mem ((OrdMap.mem_entries_iff _ _).mpr found))
  -- the rewritten branch has the same children under the same identifiers
  have same : ∀ n, (nextChildren p states page.children.entries).get n = page.get n := by
    intro n
    rw [nextChildren_get page.children.nodup]
    have slot : assocGet page.children.entries n = page.get n := rfl
    rw [slot]
    cases found : page.get n with
    | none => rfl
    | some child =>
      obtain ⟨state, held, report⟩ := taken n child found
      simp only [Option.bind_some, nextChild, held, report.there, report.unchanged]
      rfl
  have unchanged : someChildChanged states page.children.entries = false := by
    apply any_eq_false.mpr
    rintro ⟨n, child⟩ mem
    obtain ⟨state, held, report⟩ := taken n child ((OrdMap.mem_entries_iff _ _).mp mem)
    simp only [held, report.there, report.unchanged]
    decide
  have present : page.get n ≠ none := fun free => there ((slots n).mp free)
  unfold rewriteBranch
  simp only [unchanged, below, if_false]
  split
  next none_ =>
    -- a child is left
    have gone : (nextChildren p states page.children.entries).get n = none := by
      rw [OrdMap.get, none_]
      rfl
    exact absurd ((same n).symm.trans gone) present
  next listed nonempty =>
    split
    next only leaf collapses =>
      split at collapses
      next alone oid single =>
        rw [Option.map_eq_some_iff] at collapses
        obtain ⟨page', isLeaf, pair⟩ := collapses
        cases pair
        -- a leaf that is the only child would have been collapsed
        have childLeaf : children only = .leaf leaf := by
          simp only [ChildStates.leafOf, Option.bind_eq_some_iff] at isLeaf
          obtain ⟨state, held, report⟩ := isLeaf
          obtain ⟨state', held', still'⟩ : ∃ state, states.get only = some state ∧
              Still state (children only) := by
            apply still.some
            by_contra outside
            rw [still.none only outside] at held
            cases held
          cases held.symm.trans held'
          rw [still'.leaf] at report
          exact Trie.eq_leaf_of_leaf? report
        obtain ⟨m, other, mThere⟩ := notAlone only leaf childLeaf
        have gone : (nextChildren p states page.children.entries).get m = none := by
          rw [OrdMap.get, single, assocGet, if_neg (Ne.symm other)]
          rfl
        exact absurd ((slots m).mp ((same m).symm.trans gone)) mThere
      next => cases collapses
    next => rfl

theorem compactVisitor_spares :
    (compactVisitor env s fails includedVV).Spares (Compact env.geometry includedVV)
      Still AllStill where
  leaf := by
    rintro levels c p page there ⟨entries, unchanged⟩
    refine ⟨.leaf false page, ?_, ⟨rfl, rfl, rfl⟩⟩
    simp only [compactVisitor, compactBelow, there, compactLeaf, unchanged, ok_bind]
    rfl
  child := fun children still n => still.1 n
  init := fun children => ⟨fun n mem => (not_mem_nil mem).elim, fun n _ => rfl⟩
  combine := by
    intro states done children n state held fresh report
    constructor
    · intro m mem
      rcases mem_append.mp mem with old | new
      · have apart : n ≠ m := fun same => fresh (same ▸ old)
        obtain ⟨state', found, report'⟩ := held.some m old
        exact ⟨state', by simp [compactVisitor, apart, found], report'⟩
      · obtain rfl := mem_singleton.mp new
        exact ⟨state, by simp [compactVisitor], report⟩
    · intro m outside
      rw [mem_append, mem_singleton, not_or] at outside
      simp [compactVisitor, Ne.symm outside.2, held.none m outside.1]
  finish := by
    intro children p page states c compact below slots held
    refine ⟨.branch false page, ?_, ⟨rfl, rfl, rfl⟩⟩
    have unmoved : (states.values.any fun state => state.changed || state.isAbsent) = false := by
      apply any_eq_false.mpr
      intro state mem
      obtain ⟨⟨n, _⟩, listed, rfl⟩ := mem_map.mp mem
      have found := (OrdMap.mem_entries_iff _ _).mp listed
      have done : n ∈ page.children.entries.map Prod.fst := by
        by_contra outside
        rw [held.none n outside] at found
        cases found
      obtain ⟨state', found', report⟩ := held.some n done
      cases found.symm.trans found'
      simp [report.unchanged, report.there]
    have leaves : ∀ n, ChildStates.leafOf states n = (children n).leaf? := by
      intro n
      unfold ChildStates.leafOf
      by_cases done : n ∈ page.children.entries.map Prod.fst
      · obtain ⟨state, found, report⟩ := held.some n done
        rw [found, Option.bind_some, report.leaf]
      · have free : page.get n = none := (assocGet_eq_none_iff _ n).mpr done
        rw [held.none n done, (slots n).mp free]
        rfl
    have pair : findMergePair env.geometry (ChildStates.leafOf states)
        (sortNibbles states.keys) = none := by
      have inside : ∀ n state, states.get n = some state → n < env.geometry.fanout := by
        intro n state found
        have done : n ∈ page.children.entries.map Prod.fst := by
          by_contra outside
          rw [held.none n outside] at found
          cases found
        obtain ⟨child, taken⟩ := page.children.exists_get_of_mem_keys n done
        exact (page.get_valid taken).1
      rw [sortNibbles_keys inside, funext leaves, findMergePair_filter (fun n free => ?_)]
      · exact compact.2.1
      · have absent : states.get n = none := by simpa using free
        rw [← leaves n, ChildStates.leafOf, absent]
        rfl
    have unmerged : ∀ rounds, mergeSiblingLeaves p rounds c states false =
        .ok (c, states, false) := by
      intro rounds
      cases rounds with
      | zero => rfl
      | succ rounds => simp only [mergeSiblingLeaves, findMergeCandidate, pair]; rfl
    simp only [compactVisitor, unmoved, unmerged, ok_bind, Bool.or_self,
      rewriteBranch_still compact below slots held c]
    rfl

end TrieCursor.Interrupted

end GitWarp
