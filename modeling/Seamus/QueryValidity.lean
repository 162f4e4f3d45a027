-- When a query is valid: the front end looks for a positive term on every path
-- of the query, and a chunk asks the tree of its ISRs whether it can be driven.
import Seamus.QueryTree
import Seamus.QueryIsr

open seamus.expressions seamus.query_tree seamus.loaded_index seamus.post_streams seamus.query_isr

namespace seamus.query_validity

/-! ## The nodes of a parsed tree have children -/

inductive Full : ASTNode → Prop
  | term (t : TermData) : Full (.term t)
  | and {children : List ASTNode} (hne : children ≠ []) (h : ∀ c ∈ children, Full c) :
    Full (.and children)
  | or {children : List ASTNode} (hne : children ≠ []) (h : ∀ c ∈ children, Full c) :
    Full (.or children)

theorem full_negateAst {node : ASTNode} (h : Full node) : Full (negateAst node) := by
  induction h with
  | term t => exact .term _
  | and hne _ ih =>
    rw [negateAst, negateAll_eq_map]
    refine .or (by simpa using hne) ?_
    intro c hc
    obtain ⟨c', hc', rfl⟩ := List.mem_map.mp hc
    exact ih c' hc'
  | or hne _ ih =>
    rw [negateAst, negateAll_eq_map]
    refine .and (by simpa using hne) ?_
    intro c hc
    obtain ⟨c', hc', rfl⟩ := List.mem_map.mp hc
    exact ih c' hc'

theorem full_single {node : List ASTNode → ASTNode}
    (hnode : ∀ cs, cs ≠ [] → (∀ c ∈ cs, Full c) → Full (node cs)) {cs : List ASTNode}
    (hne : cs ≠ []) (h : ∀ c ∈ cs, Full c) : Full (single node cs) := by
  match cs with
  | [] => exact absurd rfl hne
  | [c] => exact h c List.mem_cons_self
  | a :: b :: cs => exact hnode _ hne h

/-- Every tree that a function of the parser gives is full. -/
structure ParserFull (fuel : Nat) : Prop where
  factor : ∀ ts id node ts' id', parseFactor fuel ts id = .ok (node, ts', id') → Full node
  factors : ∀ ts id nodes ts' id', parseFactors fuel ts id = .ok (nodes, ts', id') →
    ∀ c ∈ nodes, Full c
  termSeq : ∀ ts id node ts' id', parseTermSeq fuel ts id = .ok (node, ts', id') → Full node
  seqs : ∀ ts id nodes ts' id', parseSeqs fuel ts id = .ok (nodes, ts', id') →
    ∀ c ∈ nodes, Full c
  expr : ∀ ts id node ts' id', parseExpr fuel ts id = .ok (node, ts', id') → Full node

theorem forall_mem_cons_full {c : ASTNode} {cs : List ASTNode} (hc : Full c)
    (hcs : ∀ d ∈ cs, Full d) : ∀ d ∈ c :: cs, Full d := by
  intro d hd
  rcases List.mem_cons.mp hd with rfl | hd
  · exact hc
  · exact hcs d hd

/-- Full trees, from every function of the parser. -/
def fullTrees : Relations where
  factor _ _ node := Full node
  factors _ _ nodes := ∀ c ∈ nodes, Full c
  termSeq _ _ node := Full node
  seqs _ _ nodes := ∀ c ∈ nodes, Full c
  expr _ _ node := Full node

theorem full_rule : ParserRule fullTrees where
  word _ _ _ := .term _
  phrase _ _ _ := .term _
  group _ _ h := h
  negation _ h := full_negateAst h
  noFactors _ _ hc := absurd hc List.not_mem_nil
  factors := forall_mem_cons_full
  termSeq hne h := full_single (fun _ => .and) hne h
  noSeqs _ _ hc := absurd hc List.not_mem_nil
  seqs _ hnode hnodes := forall_mem_cons_full hnode hnodes
  expr hnode hnodes :=
    full_single (fun _ => .or) (List.cons_ne_nil _ _) (forall_mem_cons_full hnode hnodes)

theorem parser_full (fuel : Nat) : ParserFull fuel := by
  obtain ⟨hfactor, hfactors, htermSeq, hseqs, hexpr⟩ := full_rule.gives fuel
  exact ⟨hfactor, hfactors, htermSeq, hseqs, hexpr⟩

theorem parseTokens_full {ts : List Token} {ast : ASTNode} (h : parseTokens ts = .ok ast) :
    Full ast := by
  obtain ⟨⟨ast', ts', id⟩, hrun, hrest⟩ := Outcome.bind_ok h
  simp only at hrest
  split at hrest
  · cases hrest
  · cases hrest
    exact (parser_full _).expr _ _ _ _ _ hrun

/-! ## Paths and driveability -/

def HasPositive (p : Path) : Prop := ∃ t ∈ p, t.isNegated = false

/-- Every OR has a child. The parser gives no other trees, and `is_driveable` has a case of
its own for an OR without children. -/
inductive OrsFull : ASTNode → Prop
  | term (t : TermData) : OrsFull (.term t)
  | and {children : List ASTNode} (h : ∀ c ∈ children, OrsFull c) : OrsFull (.and children)
  | or {children : List ASTNode} (hne : children ≠ []) (h : ∀ c ∈ children, OrsFull c) :
    OrsFull (.or children)

theorem Full.orsFull {ast : ASTNode} (h : Full ast) : OrsFull ast := by
  induction h with
  | term t => exact .term t
  | and _ _ ih => exact .and ih
  | or hne _ ih => exact .or hne ih

theorem dnfOr_positive (cs : List ASTNode) :
    (∀ p ∈ dnfOr cs, HasPositive p) ↔ ∀ c ∈ cs, ∀ p ∈ getDnf c, HasPositive p := by
  induction cs with
  | nil => simp [dnfOr]
  | cons c cs ih => simp only [dnfOr, List.forall_mem_append, List.forall_mem_cons, ih]

theorem hasPositive_append (p q : Path) :
    HasPositive (p ++ q) ↔ HasPositive p ∨ HasPositive q := by
  unfold HasPositive
  simp only [List.mem_append, or_and_right, exists_or]

/-- The paths of an AND are positive when the paths before are, or those of one child. -/
theorem dnfAnd_positive (cs : List ASTNode) (res : List Path) :
    (∀ p ∈ dnfAnd res cs, HasPositive p) ↔
      (∀ p ∈ res, HasPositive p) ∨ ∃ c ∈ cs, ∀ p ∈ getDnf c, HasPositive p := by
  induction cs generalizing res with
  | nil => simp [dnfAnd]
  | cons c cs ih =>
    have hproduct : (∀ p ∈ res.flatMap (fun r => (getDnf c).map fun s => r ++ s), HasPositive p) ↔
        (∀ p ∈ res, HasPositive p) ∨ ∀ p ∈ getDnf c, HasPositive p := by
      simp only [List.forall_mem_flatMap, List.forall_mem_map, hasPositive_append]
      constructor
      · intro h
        by_cases hall : ∀ p ∈ res, HasPositive p
        · exact Or.inl hall
        · -- A path without a positive term leaves the child to give one, on each of its paths.
          push Not at hall
          obtain ⟨p, hp, hnot⟩ := hall
          exact Or.inr fun q hq => (h p hp q hq).resolve_left hnot
      · rintro (h | h) p hp q hq
        · exact Or.inl (h p hp)
        · exact Or.inr (h q hq)
    rw [dnfAnd, ih, hproduct, or_assoc]
    simp only [List.mem_cons, exists_eq_or_imp]

theorem someDriveable_iff (cs : List ASTNode) :
    someDriveable cs = true ↔ ∃ c ∈ cs, driveable c = true := by
  rw [someDriveable_map]
  simp

theorem eachDriveable_iff (cs : List ASTNode) :
    eachDriveable cs = true ↔ ∀ c ∈ cs, driveable c = true := by
  rw [eachDriveable_map]
  simp

/-- The two checks are one law of the syntax tree. -/
theorem positive_iff_driveable {ast : ASTNode} (h : OrsFull ast) :
    (∀ p ∈ getDnf ast, HasPositive p) ↔ driveable ast = true := by
  induction h with
  | term t => simp [getDnf, HasPositive, driveable]
  | @and cs _ ih =>
    rw [getDnf, dnfAnd_positive, driveable, someDriveable_iff]
    constructor
    · rintro (hnil | ⟨c, hc, hpos⟩)
      · obtain ⟨t, ht, _⟩ := hnil [] List.mem_cons_self
        exact absurd ht List.not_mem_nil
      · exact ⟨c, hc, (ih c hc).mp hpos⟩
    · rintro ⟨c, hc, hdrive⟩
      exact Or.inr ⟨c, hc, (ih c hc).mpr hdrive⟩
  | @or cs hne _ ih =>
    have hlen : cs.length ≠ 0 := fun h => hne (List.length_eq_zero_iff.mp h)
    rw [getDnf, dnfOr_positive, driveable, Bool.and_eq_true, eachDriveable_iff]
    simp only [hlen, ne_eq, not_false_eq_true, decide_true, true_and]
    exact forall₂_congr ih

/-- The law of a root that `build_isr_tree` made on a chunk. -/
theorem positive_iff_isDriveable {ast : ASTNode} (h : OrsFull ast) {index : LoadedIndex}
    {root : QueryISR} (hroot : buildIsrTree index ast = some root) :
    (∀ p ∈ getDnf ast, HasPositive p) ↔ isDriveable root = true := by
  rw [positive_iff_driveable h, isDriveable_buildIsrTree index ast root hroot]

/-! ## The checks of one query -/

def ONLY_NEGATED : ParseError := "Query branch cannot contain ONLY negated terms"

/-- A path fails the check of `parse_query_tree` exactly when it has no positive term. -/
theorem any_negated_iff (paths : List Path) :
    paths.any (fun p => p.all (·.isNegated)) = false ↔ ∀ p ∈ paths, HasPositive p := by
  simp only [List.any_eq_false, List.all_eq_true, not_forall, Bool.not_eq_true, exists_prop]
  exact Iff.rfl

/-- Both parsers take the tokens of a query in the same way. -/
theorem parseQueryAst_of_tokens {query : Bytes} {ast : ASTNode} (hne : tokenize query ≠ [])
    (h : parseTokens (tokenize query) = .ok ast) : parseQueryAst query = .ok ast := by
  unfold parseQueryAst
  rw [if_neg hne, h]

theorem parseQueryAst_cases {query : Bytes} {ast : ASTNode} (h : parseQueryAst query = .ok ast) :
    tokenize query ≠ [] ∧ parseTokens (tokenize query) = .ok ast := by
  unfold parseQueryAst at h
  simp only at h
  split at h
  · cases h
  · rename_i hne
    exact ⟨hne, h⟩

theorem buildTree_not_onlyNegated (ast : ASTNode) : buildTree ast ≠ .throw ONLY_NEGATED := by
  unfold buildTree
  intro h
  simp only at h
  split at h
  · have herr := Outcome.throw.inj h
    exact absurd herr (by decide)
  · cases h

/-- A root of the tree means that the parse was fine and that no path was only negated. -/
theorem parseQueryTree_root {query : Bytes} {res : ParseResult} {root : QueryNode}
    (h : parseQueryTree query = .ok res) (hroot : res.root = some root) :
    ∃ ast, tokenize query ≠ [] ∧ parseTokens (tokenize query) = .ok ast ∧
      ∀ p ∈ getDnf ast, HasPositive p := by
  unfold parseQueryTree at h
  simp only at h
  split at h
  · cases h
    cases hroot
  · rename_i hne
    obtain ⟨ast, hast, hrest⟩ := Outcome.bind_ok h
    refine ⟨ast, hne, hast, ?_⟩
    split at hrest
    · cases hrest
    · rename_i hany
      exact (any_negated_iff _).mp (by simpa using hany)

/-- The check of the front end and the check of a chunk agree on every query and on the bytes of
any chunk, by one law of every syntax tree whose ORs have children. A chunk of the program has a
root for every tree. -/
theorem checks_agree (query : Bytes) :
    (∀ res root, parseQueryTree query = .ok res → res.root = some root →
      ∃ ast, parseQueryAst query = .ok ast ∧
        ∀ index t, buildIsrTree index ast = some t → isDriveable t = true) ∧
    (∀ ast index t, parseQueryAst query = .ok ast → buildIsrTree index ast = some t →
      isDriveable t = true →
        parseQueryTree query ≠ .throw "Query branch cannot contain ONLY negated terms") ∧
    (∀ ast index t, OrsFull ast → buildIsrTree index ast = some t →
      ((∀ p ∈ getDnf ast, HasPositive p) ↔ isDriveable t = true)) ∧
    ∀ (c : Chunk) ast, ∃ t, buildIsrTree c.index ast = some t := by
  refine ⟨?_, ?_, fun ast index t h hbuild => positive_iff_isDriveable h hbuild, ?_⟩
  · intro res root h hroot
    obtain ⟨ast, hne, hast, hpos⟩ := parseQueryTree_root h hroot
    refine ⟨ast, parseQueryAst_of_tokens hne hast, fun index t hbuild => ?_⟩
    exact (positive_iff_isDriveable (parseTokens_full hast).orsFull hbuild).mp hpos
  · intro ast index t h hbuild hdrive
    obtain ⟨hne, hast⟩ := parseQueryAst_cases h
    have hpos := (positive_iff_isDriveable (parseTokens_full hast).orsFull hbuild).mpr hdrive
    have hany := (any_negated_iff _).mpr hpos
    unfold parseQueryTree
    rw [if_neg hne, hast]
    simp only [Outcome.bind, hany]
    exact buildTree_not_onlyNegated ast
  · intro c ast
    obtain ⟨t, hbuild, -⟩ := buildIsrTree_gives c ast _ (Nat.le_refl _)
    exact ⟨t, hbuild⟩

/-- The query `cat`, on an empty file. -/
theorem checks_agree_cat :
    ∃ ast t, parseQueryAst [99, 97, 116] = .ok ast ∧ buildIsrTree (load []) ast = some t ∧
      isDriveable t = true := by
  obtain ⟨ast, hparse, hdrives⟩ := (checks_agree [99, 97, 116]).1 _ _ rfl rfl
  have hast : ast = .term ⟨[99, 97, 116], false, false, 0⟩ := (Outcome.ok.inj hparse).symm
  subst hast
  exact ⟨_, _, hparse, rfl, hdrives (load []) _ rfl⟩

/-- An OR without children has no paths at all, so that none is only negated; it cannot be
driven. -/
theorem childless_or_disagrees :
    ¬ ∀ ast index t, buildIsrTree index ast = some t →
      ((∀ p ∈ getDnf ast, HasPositive p) ↔ isDriveable t = true) := by
  intro h
  have hpaths : ∀ p ∈ getDnf (.or []), HasPositive p := fun p hp => absurd hp List.not_mem_nil
  exact absurd ((h (.or []) (load []) _ rfl).mp hpaths) (by decide)

end seamus.query_validity
