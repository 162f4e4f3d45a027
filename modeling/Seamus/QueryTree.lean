-- The laws of the query tree: `parse_query_tree` turns a query into paths,
-- sorts each path by frequency and merges the paths into a trie, and
-- `evaluate_query` walks the trie. The walk decides at the leaves only, so it
-- sees the paths that do not go on in another path.
import Seamus.Expressions
import Seamus.Library.Trie
import Mathlib.Data.List.Perm.Basic

open seamus.expressions

namespace seamus.query_tree

/-! ## The source functions -/

abbrev Path := List TermData

mutual

def getDnf : ASTNode → List Path
  | .term t => [[t]]
  | .or children => dnfOr children
  | .and children => dnfAnd [[]] children

def dnfOr : List ASTNode → List Path
  | [] => []
  | c :: cs => getDnf c ++ dnfOr cs

/-- The loop over the children of an AND: every path so far with every path of the child. -/
def dnfAnd : List Path → List ASTNode → List Path
  | res, [] => res
  | res, c :: cs => dnfAnd (res.flatMap fun r => (getDnf c).map fun s => r ++ s) cs

end

/-- `TermData::operator==`: the id does not count. -/
def sameTerm (a b : TermData) : Bool :=
  a.isNegated = b.isNegated && a.isPhrase = b.isPhrase && a.val = b.val

structure TermFreq where
  term : TermData
  count : Nat

def countTerm (t : TermData) : List TermFreq → List TermFreq
  | [] => [⟨t, 1⟩]
  | f :: fs => if sameTerm f.term t then { f with count := f.count + 1 } :: fs else f :: countTerm t fs

def termFreqs (paths : List Path) : List TermFreq :=
  paths.foldl (fun freqs p => p.foldl (fun freqs t => countTerm t freqs) freqs) []

/-- The search without a `break`: the last match counts. -/
def freqOf (freqs : List TermFreq) (t : TermData) : Nat :=
  freqs.foldl (fun n f => if sameTerm f.term t then f.count else n) 0

def shouldSwap (freqs : List TermFreq) (a b : TermData) : Bool :=
  freqOf freqs a < freqOf freqs b || (freqOf freqs a = freqOf freqs b && a.id > b.id)

/-- The inner loop of the bubble sort: `k` comparisons of neighbours, from the front. -/
def bubblePass (swap : TermData → TermData → Bool) : Nat → Path → Path
  | k + 1, a :: b :: l =>
    if swap a b then b :: bubblePass swap k (a :: l) else a :: bubblePass swap k (b :: l)
  | _, l => l

/-- The outer loop, with the turns that are left. -/
def bubbleSort (swap : TermData → TermData → Bool) : Nat → Path → Path
  | 0, l => l
  | k + 1, l => bubbleSort swap k (bubblePass swap k l)

/-- The paths of a query, each sorted by frequency. -/
def sortedPaths (ast : ASTNode) : List Path :=
  let paths := getDnf ast
  paths.map fun p => bubbleSort (shouldSwap (termFreqs paths)) p.length p

/-- What the tree compares of a term. -/
structure Literal where
  val : Bytes
  isNegated : Bool
  isPhrase : Bool
  deriving DecidableEq, Repr

def literal (t : TermData) : Literal := ⟨t.val, t.isNegated, t.isPhrase⟩

/-- The data of a `QueryNode`. -/
structure NodeLabel where
  val : Bytes
  isNegated : Bool
  isPhrase : Bool
  wordId : Int
  deriving DecidableEq, Repr

abbrev QueryNode := trie.Tree NodeLabel

structure UniqueTerm where
  val : Bytes
  isPhrase : Bool
  deriving DecidableEq, Repr

/-- The id of a term in the dictionary, and the dictionary with the term. -/
def registerTerm (l : Literal) (dict : List UniqueTerm) : Int × List UniqueTerm :=
  if l.val = [] then (-1, dict)
  else
    let term : UniqueTerm := ⟨l.val, l.isPhrase⟩
    if term ∈ dict then (dict.idxOf term, dict) else (dict.length, dict ++ [term])

mutual

def assignWordIds : trie.Tree Literal → List UniqueTerm → QueryNode × List UniqueTerm
  | .node l children, dict =>
    let (wordId, dict) := registerTerm l dict
    let (children, dict) := assignAll children dict
    (.node ⟨l.val, l.isNegated, l.isPhrase, wordId⟩ children, dict)

def assignAll : List (trie.Tree Literal) → List UniqueTerm → List QueryNode × List UniqueTerm
  | [], dict => ([], dict)
  | t :: ts, dict =>
    let (node, dict) := assignWordIds t dict
    let (nodes, dict) := assignAll ts dict
    (node :: nodes, dict)

end

structure ParseResult where
  root : Option QueryNode
  uniqueTerms : List UniqueTerm

def MAX_NODES : Nat := 128

/-- The tree of the paths of a query. Nodes are only added to the arena, so it
runs out exactly when the finished tree and its root do not fit. -/
def buildTree (ast : ASTNode) : Outcome ParseResult :=
  let forest := trie.build ((sortedPaths ast).map (fun p => p.map literal))
  if 1 + trie.forestSize forest > MAX_NODES then .throw "Arena out of memory"
  else
    let (children, dict) := assignAll forest []
    .ok ⟨some (.node ⟨[], false, false, -1⟩ children), dict⟩

def parseQueryTree (query : Bytes) : Outcome ParseResult :=
  let tokens := tokenize query
  if tokens = [] then .ok ⟨none, []⟩
  else
    (parseTokens tokens).bind fun ast =>
      if (getDnf ast).any (fun p => p.all (·.isNegated)) then
        .throw "Query branch cannot contain ONLY negated terms"
      else buildTree ast

mutual

def evaluateQuery (docTermsFound : List Bool) : QueryNode → Bool
  | .node l children =>
    if l.wordId < 0 then
      if children.isEmpty then false else evaluateAny docTermsFound children
    else
      let found := docTermsFound.getD l.wordId.toNat false
      let isSatisfied := if l.isNegated then !found else found
      if !isSatisfied then false
      else if children.isEmpty then true
      else evaluateAny docTermsFound children

def evaluateAny (docTermsFound : List Bool) : List QueryNode → Bool
  | [] => false
  | node :: nodes => evaluateQuery docTermsFound node || evaluateAny docTermsFound nodes

end

/-! ## The paths of a query -/

/-- A term under an assignment of truth values to the unique terms of the query. -/
def literalHolds (dict : List UniqueTerm) (found : List Bool) (l : Literal) : Bool :=
  if l.isNegated then !found.getD (dict.idxOf ⟨l.val, l.isPhrase⟩) false
  else found.getD (dict.idxOf ⟨l.val, l.isPhrase⟩) false

def PathHolds (leaf : TermData → Prop) (p : Path) : Prop := ∀ t ∈ p, leaf t

mutual

theorem getDnf_holds (leaf : TermData → Prop) : (ast : ASTNode) →
    (ast.Holds leaf ↔ ∃ p ∈ getDnf ast, PathHolds leaf p)
  | .term t => by simp [ASTNode.Holds, getDnf, PathHolds]
  | .or children => by
    rw [ASTNode.Holds, getDnf]
    exact dnfOr_holds leaf children
  | .and children => by
    rw [ASTNode.Holds, getDnf, dnfAnd_holds leaf children [[]]]
    simp [PathHolds]

theorem dnfOr_holds (leaf : TermData → Prop) : (children : List ASTNode) →
    (AnyHolds leaf children ↔ ∃ p ∈ dnfOr children, PathHolds leaf p)
  | [] => by simp [AnyHolds, dnfOr]
  | c :: cs => by
    rw [AnyHolds, getDnf_holds leaf c, dnfOr_holds leaf cs, dnfOr]
    simp only [List.mem_append]
    constructor
    · rintro (⟨p, hp, h⟩ | ⟨p, hp, h⟩)
      · exact ⟨p, Or.inl hp, h⟩
      · exact ⟨p, Or.inr hp, h⟩
    · rintro ⟨p, hp | hp, h⟩
      · exact Or.inl ⟨p, hp, h⟩
      · exact Or.inr ⟨p, hp, h⟩

theorem dnfAnd_holds (leaf : TermData → Prop) : (children : List ASTNode) → (res : List Path) →
    ((∃ p ∈ dnfAnd res children, PathHolds leaf p) ↔
      (∃ p ∈ res, PathHolds leaf p) ∧ AllHold leaf children)
  | [], res => by simp [dnfAnd, AllHold]
  | c :: cs, res => by
    rw [dnfAnd, dnfAnd_holds leaf cs, AllHold, getDnf_holds leaf c]
    simp only [List.mem_flatMap, List.mem_map, PathHolds]
    constructor
    · rintro ⟨⟨p, ⟨r, hr, s, hs, rfl⟩, h⟩, hcs⟩
      rw [List.forall_mem_append] at h
      exact ⟨⟨r, hr, h.1⟩, ⟨s, hs, h.2⟩, hcs⟩
    · rintro ⟨⟨r, hr, h1⟩, ⟨s, hs, h2⟩, hcs⟩
      exact ⟨⟨r ++ s, ⟨r, hr, s, hs, rfl⟩, List.forall_mem_append.2 ⟨h1, h2⟩⟩, hcs⟩

end

mutual

theorem getDnf_terms : (ast : ASTNode) → ∀ p ∈ getDnf ast, ∀ t ∈ p, ast.HasTerm t
  | .term t => by
    intro p hp t' ht'
    rw [getDnf, List.mem_singleton] at hp
    rw [hp, List.mem_singleton] at ht'
    rw [ht']
    exact .term
  | .or children => by
    intro p hp t ht
    obtain ⟨c, hc, h⟩ := dnfOr_terms children p hp t ht
    exact .or hc h
  | .and children => by
    intro p hp t ht
    rcases dnfAnd_terms children [[]] p hp t ht with ⟨r, hr, h⟩ | ⟨c, hc, h⟩
    · rw [List.mem_singleton.1 hr] at h
      exact absurd h List.not_mem_nil
    · exact .and hc h

theorem dnfOr_terms : (children : List ASTNode) → ∀ p ∈ dnfOr children, ∀ t ∈ p,
    ∃ c ∈ children, c.HasTerm t
  | [] => fun _ hp => absurd hp List.not_mem_nil
  | c :: cs => by
    intro p hp t ht
    rw [dnfOr, List.mem_append] at hp
    rcases hp with hp | hp
    · exact ⟨c, List.mem_cons_self, getDnf_terms c p hp t ht⟩
    · obtain ⟨c', hc', h⟩ := dnfOr_terms cs p hp t ht
      exact ⟨c', List.mem_cons_of_mem _ hc', h⟩

theorem dnfAnd_terms : (children : List ASTNode) → (res : List Path) →
    ∀ p ∈ dnfAnd res children, ∀ t ∈ p, (∃ r ∈ res, t ∈ r) ∨ ∃ c ∈ children, c.HasTerm t
  | [], res => fun p hp t ht => Or.inl ⟨p, hp, ht⟩
  | c :: cs, res => by
    intro p hp t ht
    rw [dnfAnd] at hp
    rcases dnfAnd_terms cs _ p hp t ht with ⟨q, hq, h⟩ | ⟨c', hc', h⟩
    · obtain ⟨r, hr, hq⟩ := List.mem_flatMap.1 hq
      obtain ⟨s, hs, rfl⟩ := List.mem_map.1 hq
      rcases List.mem_append.1 h with h | h
      · exact Or.inl ⟨r, hr, h⟩
      · exact Or.inr ⟨c, List.mem_cons_self, getDnf_terms c s hs t h⟩
    · exact Or.inr ⟨c', List.mem_cons_of_mem _ hc', h⟩

end

theorem bubblePass_perm (swap : TermData → TermData → Bool) (k : Nat) (l : Path) :
    (bubblePass swap k l).Perm l := by
  induction k generalizing l with
  | zero =>
    cases l with
    | nil => exact List.Perm.refl _
    | cons a l => cases l <;> exact List.Perm.refl _
  | succ k ih =>
    match l with
    | [] => exact List.Perm.refl _
    | [a] => exact List.Perm.refl _
    | a :: b :: l =>
      rw [bubblePass]
      split
      · exact ((ih (a :: l)).cons b).trans (List.Perm.swap a b l)
      · exact (ih (b :: l)).cons a

theorem bubbleSort_perm (swap : TermData → TermData → Bool) (k : Nat) (l : Path) :
    (bubbleSort swap k l).Perm l := by
  induction k generalizing l with
  | zero => exact List.Perm.refl _
  | succ k ih => exact (ih _).trans (bubblePass_perm swap k l)

theorem sortedPaths_holds (leaf : TermData → Prop) (ast : ASTNode) :
    ast.Holds leaf ↔ ∃ p ∈ sortedPaths ast, PathHolds leaf p := by
  rw [getDnf_holds]
  constructor
  · rintro ⟨p, hp, h⟩
    exact ⟨_, List.mem_map_of_mem hp, fun t ht => h t ((bubbleSort_perm _ _ _).mem_iff.1 ht)⟩
  · rintro ⟨q, hq, h⟩
    obtain ⟨p, hp, rfl⟩ := List.mem_map.1 hq
    exact ⟨p, hp, fun t ht => h t ((bubbleSort_perm _ _ _).mem_iff.2 ht)⟩

theorem sortedPaths_terms (ast : ASTNode) :
    ∀ p ∈ sortedPaths ast, ∀ t ∈ p, ast.HasTerm t := by
  intro q hq t ht
  obtain ⟨p, hp, rfl⟩ := List.mem_map.1 hq
  exact getDnf_terms ast p hp t ((bubbleSort_perm _ _ _).mem_iff.1 ht)

/-! ## The ids of the nodes -/

/-- The id of a word stays its place in the dictionary, however the dictionary grows. -/
theorem registerTerm_spec (l : Literal) (dict : List UniqueTerm) (hl : l.val ≠ []) :
    dict <+: (registerTerm l dict).2 ∧ ∀ full, (registerTerm l dict).2 <+: full →
      (registerTerm l dict).1 = full.idxOf ⟨l.val, l.isPhrase⟩ := by
  rw [registerTerm, if_neg hl]
  by_cases hmem : (⟨l.val, l.isPhrase⟩ : UniqueTerm) ∈ dict
  · simp only [hmem, if_true]
    refine ⟨List.prefix_refl dict, ?_⟩
    rintro full ⟨more, rfl⟩
    rw [List.idxOf_append_of_mem hmem]
  · simp only [hmem, if_false]
    refine ⟨List.prefix_append _ _, ?_⟩
    rintro full ⟨more, rfl⟩
    rw [List.idxOf_append_of_mem (by simp), List.idxOf_append_of_notMem hmem]
    simp

/-- No literal of the trees has an empty word. -/
def WordsNonempty (ts : List (trie.Tree Literal)) : Prop :=
  ∀ s, trie.Reach ts s → ∀ l ∈ s, l.val ≠ []

theorem WordsNonempty.parts {l : Literal} {cs ts : List (trie.Tree Literal)}
    (h : WordsNonempty (.node l cs :: ts)) :
    l.val ≠ [] ∧ WordsNonempty cs ∧ WordsNonempty ts := by
  refine ⟨?_, ?_, ?_⟩
  · exact h [l] ⟨cs, List.mem_cons_self, Or.inl rfl⟩ l List.mem_cons_self
  · intro s hs a ha
    exact h (l :: s) ⟨cs, List.mem_cons_self, Or.inr hs⟩ a (List.mem_cons_of_mem _ ha)
  · intro s hs a ha
    cases s with
    | nil => exact absurd ha List.not_mem_nil
    | cons b s => exact h (b :: s) ((trie.reach_cons l cs ts b s).2 (Or.inr hs)) a ha

theorem assignAll_isEmpty (ts : List (trie.Tree Literal)) (dict : List UniqueTerm) :
    (assignAll ts dict).1.isEmpty = ts.isEmpty := by
  cases ts <;> rfl

mutual

/-- With its ids, a tree is evaluated as the trie of its literals. -/
theorem evaluateQuery_assigned (found : List Bool) : (t : trie.Tree Literal) →
    (dict : List UniqueTerm) → WordsNonempty [t] →
    dict <+: (assignWordIds t dict).2 ∧ ∀ full, (assignWordIds t dict).2 <+: full →
      evaluateQuery found (assignWordIds t dict).1 = t.holds (literalHolds full found)
  | .node l cs, dict, h => by
    obtain ⟨hl, hcs, -⟩ := h.parts
    obtain ⟨hreg, hid⟩ := registerTerm_spec l dict hl
    obtain ⟨hall, heval⟩ := evaluateAny_assigned found cs (registerTerm l dict).2 hcs
    refine ⟨hreg.trans hall, ?_⟩
    intro full hfull
    have hwordId := hid full (hall.trans hfull)
    have hnot : ¬ ((full.idxOf ⟨l.val, l.isPhrase⟩ : Nat) : Int) < 0 := by omega
    simp only [assignWordIds, evaluateQuery, hwordId, hnot, if_false, Int.toNat_natCast,
      assignAll_isEmpty, trie.Tree.holds, literalHolds, heval full hfull]
    cases l.isNegated <;> cases found.getD (full.idxOf ⟨l.val, l.isPhrase⟩) false <;>
      cases cs.isEmpty <;> rfl

theorem evaluateAny_assigned (found : List Bool) : (ts : List (trie.Tree Literal)) →
    (dict : List UniqueTerm) → WordsNonempty ts →
    dict <+: (assignAll ts dict).2 ∧ ∀ full, (assignAll ts dict).2 <+: full →
      evaluateAny found (assignAll ts dict).1 = trie.anyHolds (literalHolds full found) ts
  | [], dict, _ => ⟨List.prefix_refl dict, fun _ _ => rfl⟩
  | t :: ts, dict, h => by
    have hparts : WordsNonempty [t] ∧ WordsNonempty ts := by
      obtain ⟨l, cs⟩ := t
      obtain ⟨hl, hcs, hts⟩ := h.parts
      refine ⟨?_, hts⟩
      intro s hs a ha
      cases s with
      | nil => exact absurd ha List.not_mem_nil
      | cons b s =>
        refine h (b :: s) ?_ a ha
        rw [trie.reach_cons] at hs ⊢
        exact hs.imp id (fun h0 => absurd h0 (trie.reach_nil _))
    obtain ⟨h1, e1⟩ := evaluateQuery_assigned found t dict hparts.1
    obtain ⟨h2, e2⟩ := evaluateAny_assigned found ts (assignWordIds t dict).2 hparts.2
    refine ⟨h1.trans h2, ?_⟩
    intro full hfull
    simp only [assignAll, evaluateAny, trie.anyHolds, e1 full (h2.trans hfull), e2 full hfull]

end

/-! ## The law -/

/-- A term under an assignment of truth values to the unique terms. -/
def TermHolds (dict : List UniqueTerm) (found : List Bool) (t : TermData) : Prop :=
  literalHolds dict found (literal t) = true

/-- A path goes on in another path of the query: it ends at an inner node of the tree. -/
def GoesOn (ast : ASTNode) (p : Path) : Prop :=
  ∃ q ∈ sortedPaths ast, trie.ProperPrefix (p.map literal) (q.map literal)

theorem evaluateQuery_buildTree (ast : ASTNode) (res : ParseResult) (root : QueryNode)
    (found : List Bool) (hwords : ∀ t, ast.HasTerm t → t.val ≠ [])
    (hpaths : ∀ p ∈ sortedPaths ast, p ≠ []) (hres : buildTree ast = .ok res)
    (hroot : res.root = some root) :
    evaluateQuery found root = true ↔ ∃ p ∈ sortedPaths ast, ¬ GoesOn ast p ∧
      PathHolds (TermHolds res.uniqueTerms found) p := by
  have hnonempty : WordsNonempty
      (trie.build ((sortedPaths ast).map (fun p => p.map literal))) := by
    intro s hs l hl
    obtain ⟨-, q, hq, hpre⟩ := (trie.reach_build _ _).1 hs
    obtain ⟨p, hp, rfl⟩ := List.mem_map.1 hq
    obtain ⟨t, ht, rfl⟩ := List.mem_map.1 (hpre.subset hl)
    exact hwords t (sortedPaths_terms ast p hp t ht)
  have hne : ∀ p ∈ (sortedPaths ast).map (fun p => p.map literal), p ≠ [] := by
    intro q hq
    obtain ⟨p, hp, rfl⟩ := List.mem_map.1 hq
    exact fun h => hpaths p hp (List.map_eq_nil_iff.1 h)
  rw [buildTree] at hres
  simp only at hres
  split at hres
  · cases hres
  · cases hres
    cases hroot
    have heval := (evaluateAny_assigned found _ [] hnonempty).2 _ (List.prefix_refl _)
    have hany : evaluateQuery found (.node ⟨[], false, false, -1⟩
        (assignAll (trie.build ((sortedPaths ast).map (fun p => p.map literal))) []).1) =
          evaluateAny found
            (assignAll (trie.build ((sortedPaths ast).map (fun p => p.map literal))) []).1 := by
      cases (assignAll (trie.build ((sortedPaths ast).map (fun p => p.map literal))) []).1 <;> rfl
    rw [hany, heval, trie.anyHolds_build _ _ hne]
    constructor
    · rintro ⟨q, hq, hstop, hall⟩
      obtain ⟨p, hp, rfl⟩ := List.mem_map.1 hq
      refine ⟨p, hp, ?_, fun t ht => hall _ (List.mem_map_of_mem ht)⟩
      rintro ⟨q, hq, hgo⟩
      exact hstop _ (List.mem_map_of_mem hq) hgo
    · rintro ⟨p, hp, hstop, hall⟩
      refine ⟨p.map literal, List.mem_map_of_mem hp, ?_, ?_⟩
      · intro q hq hgo
        obtain ⟨q', hq', rfl⟩ := List.mem_map.1 hq
        exact hstop ⟨q', hq', hgo⟩
      · intro l hl
        obtain ⟨t, ht, rfl⟩ := List.mem_map.1 hl
        exact hall t ht

/-- A query whose phrases are all non-empty, with its tree. -/
structure Accepted (query : Bytes) (res : ParseResult) (root : QueryNode) : Prop where
  phrases : ∀ tok ∈ tokenize query, tok.type = .phrase → tok.val ≠ []
  result : parseQueryTree query = .ok res
  root : res.root = some root

/-- What `parse_query_tree` has done for a query with a tree. -/
theorem Accepted.parsed {query : Bytes} {res : ParseResult} {root : QueryNode}
    (h : Accepted query res root) : ∃ ast, parseQueryAst query = .ok ast ∧
      (∀ t, ast.HasTerm t → t.val ≠ []) ∧ (∀ p ∈ sortedPaths ast, p ≠ []) ∧
      buildTree ast = .ok res := by
  obtain ⟨hphrases, hres, hroot⟩ := h
  rw [parseQueryTree] at hres
  split at hres
  · cases hres
    cases hroot
  · rename_i htokens
    obtain ⟨ast, hast, hres⟩ := Outcome.bind_ok hres
    split at hres
    · cases hres
    · rename_i hpos
      refine ⟨ast, ?_, ?_, ?_, hres⟩
      · rw [parseQueryAst]
        simp only [htokens, if_false, hast]
      · intro t ht
        obtain ⟨tok, hmem, htype, hval⟩ := parseTokens_sourced _ _ hast t ht
        rw [← hval]
        rcases htype with hw | hp
        · exact tokenize_word query tok hmem hw
        · exact hphrases tok hmem hp
      · intro q hq hnil
        obtain ⟨p, hp, rfl⟩ := List.mem_map.1 hq
        have hpnil : p = [] := by
          have := (bubbleSort_perm (shouldSwap (termFreqs (getDnf ast))) p.length p).length_eq
          rw [hnil] at this
          exact List.length_eq_zero_iff.1 this.symm
        apply hpos
        rw [List.any_eq_true]
        exact ⟨p, hp, by rw [hpnil]; rfl⟩

/-- The tree of a query and its syntax tree agree under an assignment exactly
when the assignment does not leave it to a path that goes on in another one. -/
theorem query_tree_agrees_iff_a_true_path_ends (query : Bytes) (res : ParseResult)
    (root : QueryNode) (found : List Bool) (h : Accepted query res root) :
    ∃ ast, parseQueryAst query = .ok ast ∧
      ((evaluateQuery found root = true ↔ ast.Holds (TermHolds res.uniqueTerms found)) ↔
        ((∃ p ∈ sortedPaths ast, PathHolds (TermHolds res.uniqueTerms found) p) →
          ∃ p ∈ sortedPaths ast, ¬ GoesOn ast p ∧
            PathHolds (TermHolds res.uniqueTerms found) p)) := by
  obtain ⟨ast, hast, hwords, hpaths, hres⟩ := h.parsed
  refine ⟨ast, hast, ?_⟩
  rw [evaluateQuery_buildTree ast res root found hwords hpaths hres h.root, sortedPaths_holds]
  constructor
  · exact fun hiff hp => hiff.2 hp
  · intro himp
    constructor
    · rintro ⟨p, hp, -, hall⟩
      exact ⟨p, hp, hall⟩
    · exact himp

/-- The query `a -b`, on a document with `a` and without `b`. -/
theorem query_tree_agrees_on_a_not_b :
    ∃ ast, parseQueryAst [97, 32, 45, 98] = .ok ast ∧
      ((evaluateQuery [true, false] (.node ⟨[], false, false, -1⟩
          [.node ⟨[97], false, false, 0⟩ [.node ⟨[98], true, false, 1⟩ []]]) = true ↔
        ast.Holds (TermHolds [⟨[97], false⟩, ⟨[98], false⟩] [true, false])) ↔
        ((∃ p ∈ sortedPaths ast, PathHolds (TermHolds [⟨[97], false⟩, ⟨[98], false⟩] [true, false]) p) →
          ∃ p ∈ sortedPaths ast, ¬ GoesOn ast p ∧
            PathHolds (TermHolds [⟨[97], false⟩, ⟨[98], false⟩] [true, false]) p)) :=
  query_tree_agrees_iff_a_true_path_ends [97, 32, 45, 98] ⟨some _, [⟨[97], false⟩, ⟨[98], false⟩]⟩ _
    [true, false] ⟨by decide, rfl, rfl⟩

/-- The query `a | a b`, on a document with `a` and without `b`: the path of the
first `a` ends at an inner node, and the tree does not see it. -/
theorem query_tree_misses_a_in_a_or_a_b : ∃ res root ast,
    Accepted [97, 32, 124, 32, 97, 32, 98] res root ∧
      parseQueryAst [97, 32, 124, 32, 97, 32, 98] = .ok ast ∧
      ¬ (evaluateQuery [true, false] root = true ↔
        ast.Holds (TermHolds res.uniqueTerms [true, false])) := by
  refine ⟨⟨some (.node ⟨[], false, false, -1⟩
      [.node ⟨[97], false, false, 0⟩ [.node ⟨[98], false, false, 1⟩ []]]),
      [⟨[97], false⟩, ⟨[98], false⟩]⟩, _,
    .or [.term ⟨[97], false, false, 0⟩,
      .and [.term ⟨[97], false, false, 1⟩, .term ⟨[98], false, false, 2⟩]],
    ⟨by decide, rfl, rfl⟩, rfl, ?_⟩
  intro h
  have htrue : ASTNode.Holds (TermHolds [⟨[97], false⟩, ⟨[98], false⟩] [true, false])
      (.or [.term ⟨[97], false, false, 0⟩,
        .and [.term ⟨[97], false, false, 1⟩, .term ⟨[98], false, false, 2⟩]]) := Or.inl rfl
  exact absurd (h.2 htrue) (by decide)

end seamus.query_tree
