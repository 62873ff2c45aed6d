import GitWarp.Js.Text
import GitWarp.Lib.OrdMap
import GitWarp.Lib.Run
import GitWarp.Lib.Wildcards

/-!
# Glob patterns

A glob is compiled to a regular expression: the metacharacters are escaped, each escaped star
becomes `.*`, and the result is anchored at both ends and cached. In the expression a dot
matches every code unit but the four line terminators, so a star does not match across a line
break, while the pattern `*` alone, which is not compiled, does.
-/
namespace GitWarp

open Js Lib List

variable (globRegexCache : GlobRegexCache) (pattern : JsString)

namespace Glob

/-! ### Compilation -/

def star : CodeUnit := digitUnit '*'

def dot : CodeUnit := digitUnit '.'

def backslash : CodeUnit := digitUnit '\\'

def caret : CodeUnit := digitUnit '^'

def dollar : CodeUnit := digitUnit '$'

/-- The class of `escapeRegex`. -/
def metacharacters : JsString := lit ".*+?^$\x7b\x7d()|[]\\"

def escapeUnit (u : CodeUnit) : JsString := if u ∈ metacharacters then [backslash, u] else [u]

def escapeRegex (value : JsString) : JsString := value.flatMap escapeUnit

/-- `.replace(/\\\*/g, '.*')`. -/
def replaceEscapedStars : JsString → JsString
  | [] => []
  | [u] => [u]
  | u :: v :: rest =>
    if u = backslash ∧ v = star then dot :: star :: replaceEscapedStars rest
    else u :: replaceEscapedStars (v :: rest)

def globSource (pattern : JsString) : JsString :=
  caret :: replaceEscapedStars (escapeRegex pattern) ++ [dollar]

/-! ### Regular expressions -/

/-- A term of a regular expression, as far as globs use them. -/
inductive RegexTerm
  | unit (u : CodeUnit)
  | dotStar
  deriving DecidableEq

def RegexTerm.cons (term : RegexTerm) (rest : Option (List RegexTerm)) : Option (List RegexTerm) :=
  rest.map (term :: ·)

/-- The terms of a source text: escaped units, `.*`, and units that are no metacharacters. -/
def parseTerms : JsString → Option (List RegexTerm)
  | [] => some []
  | [u] => if u ∈ metacharacters then none else some [.unit u]
  | u :: v :: rest =>
    if u = backslash then (RegexTerm.unit v).cons (parseTerms rest)
    else if u = dot ∧ v = star then RegexTerm.dotStar.cons (parseTerms rest)
    else if u ∈ metacharacters then none
    else (RegexTerm.unit u).cons (parseTerms (v :: rest))

/-- `new RegExp(source)`, of which only anchored sequences of terms are modelled. -/
def newRegExp (source : JsString) : Except Failure (List RegexTerm) :=
  if source.head? = some caret ∧ source.getLast? = some dollar then
    match parseTerms source.tail.dropLast with
    | some terms => .ok terms
    | none => .error ⟨.typeError, [], lit "Invalid regular expression"⟩
  else .error ⟨.typeError, [], lit "Invalid regular expression"⟩

def isLineTerminator (u : CodeUnit) : Bool :=
  decide (u.val = 0x0A ∨ u.val = 0x0D ∨ u.val = 0x2028 ∨ u.val = 0x2029)

/-- A run of units that a dot matches, and the rest behind it. -/
def afterRun (rest : JsString → Bool) : JsString → Bool
  | [] => rest []
  | u :: text => rest (u :: text) || (!isLineTerminator u && afterRun rest text)

/-- `regex.test(text)` for the anchored terms. -/
def testRegex : List RegexTerm → JsString → Bool
  | [], text => text.isEmpty
  | .unit u :: terms, text =>
    match text with
    | [] => false
    | v :: tail => decide (u = v) && testRegex terms tail
  | .dotStar :: terms, text => afterRun (testRegex terms) text

/-! ### Matching -/

abbrev GlobRegexCache := OrdMap JsString (List RegexTerm)

def getGlobRegex (globRegexCache : GlobRegexCache) (pattern : JsString) :
    Except Failure (List RegexTerm × GlobRegexCache) :=
  match globRegexCache.get pattern with
  | some regex => .ok (regex, globRegexCache)
  | none => do
    let regex ← newRegExp (globSource pattern)
    let filled := globRegexCache.set pattern regex
    return (regex, if filled.size ≥ 1000 then OrdMap.empty.set pattern regex else filled)

/-- `matchGlob` for one pattern. -/
def matchOne (globRegexCache : GlobRegexCache) (pattern str : JsString) :
    Except Failure (Bool × GlobRegexCache) :=
  if pattern = [star] then .ok (true, globRegexCache)
  else if star ∉ pattern then .ok (decide (pattern = str), globRegexCache)
  else do
    let (regex, globRegexCache) ← getGlobRegex globRegexCache pattern
    return (testRegex regex str, globRegexCache)

/-- `pattern.some(...)`: stops at the first pattern that matches. -/
def matchSome (globRegexCache : GlobRegexCache) (str : JsString) :
    List JsString → Except Failure (Bool × GlobRegexCache)
  | [] => .ok (false, globRegexCache)
  | pattern :: rest => do
    let (matched, globRegexCache) ← matchOne globRegexCache pattern str
    if matched then return (true, globRegexCache) else matchSome globRegexCache str rest

inductive GlobPattern
  | one (pattern : JsString)
  | any (patterns : List JsString)

def matchGlob (globRegexCache : GlobRegexCache) (pattern : GlobPattern) (str : JsString) :
    Except Failure (Bool × GlobRegexCache) :=
  match pattern with
  | .one pattern => matchOne globRegexCache pattern str
  | .any patterns => matchSome globRegexCache str patterns

def afterCall (globRegexCache : GlobRegexCache) (call : GlobPattern × JsString) : GlobRegexCache :=
  match matchGlob globRegexCache call.1 call.2 with
  | .ok (_, globRegexCache) => globRegexCache
  | .error _ => globRegexCache

/-! ### Escaping and parsing -/

/-- The term that a unit of the pattern becomes. -/
def termOf (u : CodeUnit) : RegexTerm := if u = star then .dotStar else .unit u

theorem star_mem_metacharacters : star ∈ metacharacters := by decide

theorem dot_mem_metacharacters : dot ∈ metacharacters := by decide

theorem backslash_mem_metacharacters : backslash ∈ metacharacters := by decide

theorem head_escapeRegex (value) : (escapeRegex value).head? ≠ some star := by
  cases value with
  | nil => simp [escapeRegex]
  | cons u value =>
    rw [escapeRegex, flatMap_cons, escapeUnit]
    split
    next => simpa using (by decide : backslash ≠ star)
    next plain =>
      simp only [singleton_append, List.head?_cons, ne_eq, Option.some.injEq]
      rintro rfl
      exact plain star_mem_metacharacters

theorem replaceEscapedStars_cons {text : JsString} (bare : text.head? ≠ some star) :
    replaceEscapedStars (u :: text) = u :: replaceEscapedStars text := by
  cases text with
  | nil => rfl
  | cons v rest =>
    rw [replaceEscapedStars, if_neg]
    rintro ⟨-, rfl⟩
    exact bare rfl

theorem parseTerms_plain (u) (text : JsString) (plain : u ∉ metacharacters) :
    parseTerms (u :: text) = (RegexTerm.unit u).cons (parseTerms text) := by
  have noBackslash : u ≠ backslash := fun same => plain (same ▸ backslash_mem_metacharacters)
  have noDot : u ≠ dot := fun same => plain (same ▸ dot_mem_metacharacters)
  cases text with
  | nil => simp [parseTerms, plain, RegexTerm.cons]
  | cons v rest => simp [parseTerms, plain, noBackslash, noDot]

theorem parseTerms_globBody :
    parseTerms (replaceEscapedStars (escapeRegex pattern)) = some (pattern.map termOf) := by
  induction pattern with
  | nil => rfl
  | cons u pattern ih =>
    have bare := head_escapeRegex pattern
    rw [escapeRegex, flatMap_cons, ← escapeRegex, escapeUnit]
    split
    next escaped =>
      by_cases wild : u = star
      · subst wild
        simp only [cons_append, nil_append, replaceEscapedStars, and_self, if_true]
        rw [parseTerms, if_neg (by decide), if_pos ⟨rfl, rfl⟩, ih]
        rfl
      · rw [cons_append, singleton_append, replaceEscapedStars,
          if_neg (fun both => wild both.2), replaceEscapedStars_cons bare, parseTerms,
          if_pos rfl, ih]
        simp [termOf, wild, RegexTerm.cons]
    next plain =>
      have tame : u ≠ star := fun same => plain (same ▸ star_mem_metacharacters)
      rw [singleton_append, replaceEscapedStars_cons bare, parseTerms_plain u _ plain, ih]
      simp [termOf, tame, RegexTerm.cons]

theorem newRegExp_globSource : newRegExp (globSource pattern) = .ok (pattern.map termOf) := by
  have anchored : (globSource pattern).head? = some caret ∧
      (globSource pattern).getLast? = some dollar := by
    constructor
    · rfl
    · rw [globSource, List.getLast?_append]
      rfl
  have body : (globSource pattern).tail.dropLast = replaceEscapedStars (escapeRegex pattern) := by
    rw [globSource, cons_append, tail_cons, dropLast_concat]
  rw [newRegExp, if_pos anchored, body, parseTerms_globBody]

/-! ### What a regular expression accepts -/

theorem afterRun_iff (rest) (text) :
    afterRun rest text = true ↔
      ∃ run tail, text = run ++ tail ∧ (∀ u ∈ run, isLineTerminator u = false) ∧
        rest tail = true := by
  induction text with
  | nil =>
    rw [afterRun]
    constructor
    · intro accepted
      exact ⟨[], [], rfl, by simp, accepted⟩
    · rintro ⟨run, tail, whole, -, accepted⟩
      obtain ⟨rfl, rfl⟩ := append_eq_nil_iff.mp whole.symm
      exact accepted
  | cons u text ih =>
    rw [afterRun, Bool.or_eq_true, Bool.and_eq_true, Bool.not_eq_true', ih]
    constructor
    · rintro (accepted | ⟨matched, run, tail, rfl, fits, accepted⟩)
      · exact ⟨[], u :: text, rfl, by simp, accepted⟩
      · exact ⟨u :: run, tail, rfl, forall_mem_cons.mpr ⟨matched, fits⟩, accepted⟩
    · rintro ⟨run, tail, whole, fits, accepted⟩
      cases run with
      | nil => exact Or.inl (whole ▸ accepted)
      | cons v run =>
        obtain ⟨rfl, rfl⟩ := List.cons.inj whole
        obtain ⟨matched, fits⟩ := forall_mem_cons.mp fits
        exact Or.inr ⟨matched, run, tail, rfl, fits, accepted⟩

/-- The pattern as letters and wildcards. -/
def wildcards (pattern : JsString) : List (Option CodeUnit) :=
  pattern.map fun u => if u = star then none else some u

theorem testRegex_iff (str) :
    testRegex (pattern.map termOf) str = true ↔
      Fills (fun u => isLineTerminator u = false) (wildcards pattern) str := by
  induction pattern generalizing str with
  | nil => simp [testRegex, wildcards, Fills.nil_iff]
  | cons u pattern ih =>
    rw [map_cons, wildcards, map_cons, ← wildcards]
    by_cases wild : u = star
    · rw [termOf, if_pos wild, if_pos wild, testRegex, afterRun_iff, Fills.wildcard_iff]
      simp only [ih]
    · rw [termOf, if_neg wild, if_neg wild, Fills.letter_iff]
      cases str with
      | nil => simp [testRegex]
      | cons v tail =>
        rw [testRegex, Bool.and_eq_true, decide_eq_true_eq, ih]
        constructor
        · rintro ⟨rfl, rest⟩
          exact ⟨tail, rfl, rest⟩
        · rintro ⟨tail', same, rest⟩
          obtain ⟨rfl, rfl⟩ := List.cons.inj same
          exact ⟨rfl, rest⟩

/-! ### What a glob should match -/

/-- The string results from the pattern by replacing each star by some string. -/
def Expands (pattern str : JsString) : Prop := FillsFreely (wildcards pattern) str

def GlobPattern.patterns : GlobPattern → List JsString
  | .one pattern => [pattern]
  | .any patterns => patterns

def Accepts (pattern : GlobPattern) (str : JsString) : Prop :=
  ∃ p ∈ pattern.patterns, Expands p str

def lineBreaks (text : JsString) : Nat := text.countP isLineTerminator

/-- What the program accepts of one pattern. -/
def Tested (pattern str : JsString) : Prop :=
  pattern = [star] ∨ Fills (fun u => isLineTerminator u = false) (wildcards pattern) str

theorem wildcards_plain (plain : star ∉ pattern) : wildcards pattern = pattern.map some := by
  apply map_congr_left
  intro u mem
  rw [if_neg]
  rintro rfl
  exact plain mem

theorem countP_wildcards :
    (wildcards pattern).reduceOption.countP isLineTerminator = lineBreaks pattern := by
  induction pattern with
  | nil => rfl
  | cons u pattern ih =>
    rw [wildcards, map_cons, ← wildcards]
    by_cases wild : u = star
    · subst wild
      rw [if_pos rfl, reduceOption_cons_of_none, ih, lineBreaks, lineBreaks,
        countP_cons_of_neg (by decide)]
    · rw [if_neg wild, reduceOption_cons_of_some, countP_cons, ih, lineBreaks, lineBreaks,
        countP_cons]

theorem tested_iff (str) :
    Tested pattern str ↔
      Expands pattern str ∧ (pattern = [star] ∨ lineBreaks str ≤ lineBreaks pattern) := by
  constructor
  · rintro (rfl | fills)
    · have whole : Expands [star] (str ++ []) := .wildcard str (fun _ _ => trivial) .done
      rw [append_nil] at whole
      exact ⟨whole, Or.inl rfl⟩
    · have few := (Fills.without_iff fills.freely).mp fills
      rw [countP_wildcards] at few
      exact ⟨fills.freely, Or.inr few⟩
  · rintro ⟨expands, alone | few⟩
    · exact Or.inl alone
    · right
      rw [Fills.without_iff expands, countP_wildcards]
      exact few

/-! ### The cache -/

/-- Every cached expression is the one of its pattern. -/
def Compiled (globRegexCache : GlobRegexCache) : Prop :=
  ∀ pattern regex, globRegexCache.get pattern = some regex → regex = pattern.map termOf

theorem Compiled.set {globRegexCache} (compiled : Compiled globRegexCache) {pattern} :
    Compiled (globRegexCache.set pattern (pattern.map termOf)) :=
  OrdMap.forall_set rfl compiled

theorem compiled_empty : Compiled .empty := by
  intro p regex found
  cases found

theorem getGlobRegex_spec (compiled : Compiled globRegexCache) {pattern} :
    ∃ after, getGlobRegex globRegexCache pattern = .ok (pattern.map termOf, after) ∧
      Compiled after := by
  rw [getGlobRegex]
  cases found : globRegexCache.get pattern with
  | some regex =>
    rw [compiled pattern regex found]
    exact ⟨globRegexCache, rfl, compiled⟩
  | none =>
    rw [newRegExp_globSource]
    refine ⟨_, rfl, ?_⟩
    -- a full cache is cleared and keeps the new expression alone
    split
    · exact compiled_empty.set
    · exact compiled.set

theorem matchOne_spec (compiled : Compiled globRegexCache) {pattern str} :
    ∃ answer after, matchOne globRegexCache pattern str = .ok (answer, after) ∧ Compiled after ∧
      (answer = true ↔ Tested pattern str) := by
  rw [matchOne]
  split
  next alone => exact ⟨true, globRegexCache, rfl, compiled, by simp [Tested, alone]⟩
  next other =>
    split
    next plain =>
      refine ⟨_, globRegexCache, rfl, compiled, ?_⟩
      rw [Tested, wildcards_plain pattern plain, Fills.letters_iff, decide_eq_true_eq]
      exact ⟨fun same => Or.inr same.symm, fun either => (either.resolve_left other).symm⟩
    next wild =>
      obtain ⟨after, found, kept⟩ := getGlobRegex_spec globRegexCache compiled
      rw [found]
      refine ⟨_, after, rfl, kept, ?_⟩
      rw [testRegex_iff, Tested, or_iff_right other]

theorem matchSome_spec (compiled : Compiled globRegexCache) :
    ∃ answer after, matchSome globRegexCache str patterns = .ok (answer, after) ∧ Compiled after ∧
      (answer = true ↔ ∃ p ∈ patterns, Tested p str) := by
  induction patterns generalizing globRegexCache with
  | nil => exact ⟨false, globRegexCache, rfl, compiled, by simp⟩
  | cons pattern rest ih =>
    obtain ⟨matched, next, first, kept, said⟩ := matchOne_spec globRegexCache compiled
    rw [matchSome, first]
    cases matched with
    | true =>
      refine ⟨true, next, rfl, kept, ?_⟩
      simp [said.mp rfl]
    | false =>
      obtain ⟨answer, after, later, kept', said'⟩ := ih next kept
      refine ⟨answer, after, later, kept', ?_⟩
      have missed : ¬ Tested pattern str := fun tested => by simpa using said.mpr tested
      rw [said', exists_mem_cons_iff, or_iff_right missed]

theorem matchGlob_spec (compiled : Compiled globRegexCache) {pattern str} :
    ∃ answer after, matchGlob globRegexCache pattern str = .ok (answer, after) ∧ Compiled after ∧
      (answer = true ↔ ∃ p ∈ pattern.patterns, Tested p str) := by
  cases pattern with
  | one p =>
    obtain ⟨answer, after, matched, kept, said⟩ := matchOne_spec globRegexCache compiled
    exact ⟨answer, after, matched, kept, by simpa [GlobPattern.patterns] using said⟩
  | any patterns => exact matchSome_spec globRegexCache compiled

theorem Compiled.run {globRegexCache} (compiled : Compiled globRegexCache) (calls) :
    Compiled (run afterCall globRegexCache calls) := by
  induction calls generalizing globRegexCache with
  | nil => exact compiled
  | cons call rest ih =>
    apply ih
    obtain ⟨answer, after, matched, kept, -⟩ :=
      matchGlob_spec globRegexCache compiled
    rw [afterCall, matched]
    exact kept

/-- After any earlier calls a glob is matched without an error, and the answer is that one of its
patterns expands to the string exactly when none does, or one that does is `*` or has as many
line terminators as the string. -/
theorem matchGlob_exact_iff (earlier : List (GlobPattern × JsString)) (pattern : GlobPattern)
    (str : JsString) :
    ∃ answer after, matchGlob (run afterCall .empty earlier) pattern str = .ok (answer, after) ∧
      ((answer = true ↔ Accepts pattern str) ↔ (∀ p ∈ pattern.patterns, ¬ Expands p str) ∨
          ∃ p ∈ pattern.patterns, Expands p str ∧
            (p = [star] ∨ lineBreaks str ≤ lineBreaks p)) := by
  obtain ⟨answer, after, matched, -, said⟩ :=
    matchGlob_spec _ (compiled_empty.run earlier)
  refine ⟨answer, after, matched, ?_⟩
  simp only [tested_iff] at said
  rw [said, Accepts]
  constructor
  · intro exact_
    by_cases some_ : ∃ p ∈ pattern.patterns, Expands p str
    · exact Or.inr (exact_.mpr some_)
    · left
      intro p member expands
      exact some_ ⟨p, member, expands⟩
  · rintro (none_ | spared)
    · constructor
      · rintro ⟨p, member, expands, -⟩
        exact absurd expands (none_ p member)
      · rintro ⟨p, member, expands⟩
        exact absurd expands (none_ p member)
    · exact ⟨fun ⟨p, member, expands, _⟩ => ⟨p, member, expands⟩, fun _ => spared⟩

/-- A star does not match a line feed. -/
theorem star_misses_line_feed :
    (∃ after, matchGlob .empty (.one (lit "a*b")) (lit "a\nb") = .ok (false, after)) ∧
      Accepts (.one (lit "a*b")) (lit "a\nb") :=
  ⟨⟨_, rfl⟩, lit "a*b", mem_singleton.mpr rfl,
    .letter (.wildcard (lit "\n") (fun _ _ => trivial) (.letter .done))⟩

end Glob
end GitWarp
