-- The grammar of queries and what a derivation says: the parser accepts the words of the
-- grammar, and the tree it returns, with the negation in its leaves, says the same.
import Seamus.Expressions

open seamus.expressions

namespace seamus.query_grammar

/-! ## Derivations -/

mutual

/-- `F -> '-' F | '(' E ')' | word | phrase` -/
inductive Factor : List Token → Type
  | not {ts : List Token} (minus : Token) (hminus : minus.type = .minus) (f : Factor ts) :
    Factor (minus :: ts)
  | group {ts : List Token} (left : Token) (hleft : left.type = .lparen) (e : Expr ts)
    (right : Token) (hright : right.type = .rparen) : Factor (left :: (ts ++ [right]))
  | word (t : Token) (ht : t.type = .word) : Factor [t]
  | phrase (t : Token) (ht : t.type = .phrase) : Factor [t]

/-- `F*` -/
inductive Factors : List Token → Type
  | nil : Factors []
  | cons {ts rest : List Token} (f : Factor ts) (fs : Factors rest) : Factors (ts ++ rest)

/-- `T -> F+` -/
inductive TermSeq : List Token → Type
  | mk {ts rest : List Token} (f : Factor ts) (fs : Factors rest) : TermSeq (ts ++ rest)

/-- `('|' T)*` -/
inductive Alternatives : List Token → Type
  | nil : Alternatives []
  | cons {ts rest : List Token} (pipe : Token) (hpipe : pipe.type = .pipe) (t : TermSeq ts)
    (alts : Alternatives rest) : Alternatives (pipe :: (ts ++ rest))

/-- `E -> T ('|' T)*` -/
inductive Expr : List Token → Type
  | mk {ts rest : List Token} (t : TermSeq ts) (alts : Alternatives rest) : Expr (ts ++ rest)

end

/-! ## What a derivation says -/

/-- A truth value for every phrase and for every word. -/
abbrev Assignment := Bool → Bytes → Prop

mutual

def Factor.Holds (truth : Assignment) {ts : List Token} : Factor ts → Prop
  | .not _ _ f => ¬f.Holds truth
  | .group _ _ e _ _ => e.Holds truth
  | .word t _ => truth false t.val
  | .phrase t _ => truth true t.val

def Factors.Holds (truth : Assignment) {ts : List Token} : Factors ts → Prop
  | .nil => True
  | .cons f fs => f.Holds truth ∧ fs.Holds truth

def TermSeq.Holds (truth : Assignment) {ts : List Token} : TermSeq ts → Prop
  | .mk f fs => f.Holds truth ∧ fs.Holds truth

def Alternatives.Holds (truth : Assignment) {ts : List Token} : Alternatives ts → Prop
  | .nil => False
  | .cons _ _ t alts => t.Holds truth ∨ alts.Holds truth

def Expr.Holds (truth : Assignment) {ts : List Token} : Expr ts → Prop
  | .mk t alts => t.Holds truth ∨ alts.Holds truth

end

/-- A leaf of the tree under an assignment. -/
def leafHolds (truth : Assignment) (t : TermData) : Prop :=
  if t.isNegated then ¬truth t.isPhrase t.val else truth t.isPhrase t.val

/-! ## Negation -/

theorem leafHolds_negated (truth : Assignment) (t : TermData) :
    leafHolds truth { t with isNegated := !t.isNegated } ↔ ¬leafHolds truth t := by
  unfold leafHolds
  cases t.isNegated <;> simp

mutual

/-- The negated tree is the negation of the tree. -/
theorem negateAst_holds (truth : Assignment) : (node : ASTNode) →
    ((negateAst node).Holds (leafHolds truth) ↔ ¬node.Holds (leafHolds truth))
  | .term t => by
    rw [negateAst]
    exact leafHolds_negated truth t
  | .and children => by
    rw [negateAst, ASTNode.Holds, ASTNode.Holds]
    exact (negateAll_holds truth children).1
  | .or children => by
    rw [negateAst, ASTNode.Holds, ASTNode.Holds]
    exact (negateAll_holds truth children).2

theorem negateAll_holds (truth : Assignment) : (children : List ASTNode) →
    (AnyHolds (leafHolds truth) (negateAll children) ↔ ¬AllHold (leafHolds truth) children) ∧
      (AllHold (leafHolds truth) (negateAll children) ↔ ¬AnyHolds (leafHolds truth) children)
  | [] => by simp [negateAll, AnyHolds, AllHold]
  | c :: cs => by
    obtain ⟨hany, hall⟩ := negateAll_holds truth cs
    rw [negateAll, AnyHolds, AllHold, AllHold, AnyHolds, negateAst_holds truth c, hany, hall]
    exact ⟨not_and_or.symm, not_or.symm⟩

end

theorem single_and_holds (leaf : TermData → Prop) {nodes : List ASTNode} (hne : nodes ≠ []) :
    (single .and nodes).Holds leaf ↔ AllHold leaf nodes := by
  match nodes with
  | [] => exact absurd rfl hne
  | [c] => simp [single, AllHold]
  | c :: d :: nodes => simp [single, ASTNode.Holds]

theorem single_or_holds (leaf : TermData → Prop) {nodes : List ASTNode} (hne : nodes ≠ []) :
    (single .or nodes).Holds leaf ↔ AnyHolds leaf nodes := by
  match nodes with
  | [] => exact absurd rfl hne
  | [c] => simp [single, AnyHolds]
  | c :: d :: nodes => simp [single, ASTNode.Holds]

/-! ## What is accepted is derivable -/

/-- What each function of the parser consumes is derivable. -/
structure ParserDerives (fuel : Nat) : Prop where
  factor : ∀ ts id node rest id', parseFactor fuel ts id = .ok (node, rest, id') →
    ∃ before, ts = before ++ rest ∧ Nonempty (Factor before)
  factors : ∀ ts id nodes rest id', parseFactors fuel ts id = .ok (nodes, rest, id') →
    ∃ before, ts = before ++ rest ∧ Nonempty (Factors before) ∧
      (nodes ≠ [] → Nonempty (TermSeq before))
  termSeq : ∀ ts id node rest id', parseTermSeq fuel ts id = .ok (node, rest, id') →
    ∃ before, ts = before ++ rest ∧ Nonempty (TermSeq before)
  seqs : ∀ ts id nodes rest id', parseSeqs fuel ts id = .ok (nodes, rest, id') →
    ∃ before, ts = before ++ rest ∧ Nonempty (Alternatives before)
  expr : ∀ ts id node rest id', parseExpr fuel ts id = .ok (node, rest, id') →
    ∃ before, ts = before ++ rest ∧ Nonempty (Expr before)

/-- Derivations of what was taken from the tokens. -/
def derivations : Relations where
  factor ts rest _ := ∃ before, ts = before ++ rest ∧ Nonempty (Factor before)
  factors ts rest nodes := ∃ before, ts = before ++ rest ∧ Nonempty (Factors before) ∧
    (nodes ≠ [] → Nonempty (TermSeq before))
  termSeq ts rest _ := ∃ before, ts = before ++ rest ∧ Nonempty (TermSeq before)
  seqs ts rest _ := ∃ before, ts = before ++ rest ∧ Nonempty (Alternatives before)
  expr ts rest _ := ∃ before, ts = before ++ rest ∧ Nonempty (Expr before)

theorem derives_rule : ParserRule derivations where
  word {t} _ _ ht := ⟨[t], rfl, ⟨.word t ht⟩⟩
  phrase {t} _ _ ht := ⟨[t], rfl, ⟨.phrase t ht⟩⟩
  group {t t' ts ts' node} hleft hright h := by
    obtain ⟨before, hts, ⟨e⟩⟩ := h
    refine ⟨t :: (before ++ [t']), ?_, ⟨.group t hleft e t' hright⟩⟩
    simp [hts]
  negation {t ts ts' node} hminus h := by
    obtain ⟨before, hts, ⟨f⟩⟩ := h
    exact ⟨t :: before, by rw [hts, List.cons_append], ⟨.not t hminus f⟩⟩
  noFactors _ := ⟨[], rfl, ⟨.nil⟩, fun hne => absurd rfl hne⟩
  factors h hs := by
    obtain ⟨before1, hts, ⟨f⟩⟩ := h
    obtain ⟨before2, hts', ⟨fs⟩, _⟩ := hs
    refine ⟨before1 ++ before2, ?_, ⟨.cons f fs⟩, fun _ => ⟨.mk f fs⟩⟩
    rw [hts, hts', List.append_assoc]
  termSeq hne h := by
    obtain ⟨before, hts, _, hseq⟩ := h
    exact ⟨before, hts, hseq hne⟩
  noSeqs _ := ⟨[], rfl, ⟨.nil⟩⟩
  seqs {t ts ts' ts'' node nodes} hpipe h hs := by
    obtain ⟨before1, hts, ⟨seq⟩⟩ := h
    obtain ⟨before2, hts', ⟨alts⟩⟩ := hs
    refine ⟨t :: (before1 ++ before2), ?_, ⟨.cons t hpipe seq alts⟩⟩
    rw [hts, hts', List.cons_append, List.append_assoc]
  expr h hs := by
    obtain ⟨before1, hts, ⟨seq⟩⟩ := h
    obtain ⟨before2, hts', ⟨alts⟩⟩ := hs
    refine ⟨before1 ++ before2, ?_, ⟨.mk seq alts⟩⟩
    rw [hts, hts', List.append_assoc]

theorem parser_derives (fuel : Nat) : ParserDerives fuel := by
  obtain ⟨hfactor, hfactors, htermSeq, hseqs, hexpr⟩ := derives_rule.gives fuel
  exact ⟨hfactor, hfactors, htermSeq, hseqs, hexpr⟩

/-! ## What is derivable is accepted -/

/-- Tokens before which the loop of `parse_expr` stops. -/
def EndsExpr (rest : List Token) : Prop := ∀ t ∈ rest.head?, t.type = .rparen

/-- Tokens before which the loop of `parse_term_seq` stops. -/
def EndsSeq (rest : List Token) : Prop := ∀ t ∈ rest.head?, t.type = .pipe ∨ t.type = .rparen

theorem Factor.length_pos {ts : List Token} (f : Factor ts) : 0 < ts.length := by
  cases f <;> simp

/-- The first token of a factor starts one. -/
theorem Factor.head {ts : List Token} (f : Factor ts) :
    ∃ t rest, ts = t :: rest ∧ ¬(t.type = .pipe ∨ t.type = .rparen) := by
  cases f with
  | not minus hminus f => exact ⟨minus, _, rfl, by simp [hminus]⟩
  | group left hleft e right hright => exact ⟨left, _, rfl, by simp [hleft]⟩
  | word t ht => exact ⟨t, _, rfl, by simp [ht]⟩
  | phrase t ht => exact ⟨t, _, rfl, by simp [ht]⟩

theorem TermSeq.length_pos {ts : List Token} (t : TermSeq ts) : 0 < ts.length := by
  cases t with
  | mk f fs =>
    have h := f.length_pos
    rw [List.length_append]
    omega

theorem parseFactors_stop (fuel : Nat) {rest : List Token} (id : Nat) (h : EndsSeq rest) :
    parseFactors (fuel + 1) rest id = .ok ([], rest, id) := by
  cases rest with
  | nil => rw [parseFactors]
  | cons t rest => rw [parseFactors, if_pos (h t rfl)]

theorem parseSeqs_stop (fuel : Nat) {rest : List Token} (id : Nat) (h : EndsExpr rest) :
    parseSeqs (fuel + 1) rest id = .ok ([], rest, id) := by
  cases rest with
  | nil => rw [parseSeqs]
  | cons t rest =>
    have ht : t.type ≠ .pipe := by
      rw [h t rfl]
      decide
    rw [parseSeqs, if_neg ht]

theorem endsSeq_alternatives {ts rest : List Token} (alts : Alternatives ts) (h : EndsExpr rest) :
    EndsSeq (ts ++ rest) := by
  cases alts with
  | nil => exact fun t ht => Or.inr (h t ht)
  | cons pipe hpipe _ _ =>
    intro t ht
    cases ht
    exact Or.inl hpipe

/-- The fuel with which each function of the parser reads a derivation, and what it returns. -/
structure ParserReads (fuel : Nat) : Prop where
  factor : ∀ ts (f : Factor ts) rest id, 5 * ts.length + 1 ≤ fuel →
    ∃ node id', parseFactor fuel (ts ++ rest) id = .ok (node, rest, id') ∧
      ∀ truth, node.Holds (leafHolds truth) ↔ f.Holds truth
  factors : ∀ ts (fs : Factors ts) rest id, EndsSeq rest → 5 * ts.length + 2 ≤ fuel →
    ∃ nodes id', parseFactors fuel (ts ++ rest) id = .ok (nodes, rest, id') ∧
      (nodes = [] → ts = []) ∧ ∀ truth, AllHold (leafHolds truth) nodes ↔ fs.Holds truth
  termSeq : ∀ ts (t : TermSeq ts) rest id, EndsSeq rest → 5 * ts.length + 3 ≤ fuel →
    ∃ node id', parseTermSeq fuel (ts ++ rest) id = .ok (node, rest, id') ∧
      ∀ truth, node.Holds (leafHolds truth) ↔ t.Holds truth
  seqs : ∀ ts (alts : Alternatives ts) rest id, EndsExpr rest → 5 * ts.length + 1 ≤ fuel →
    ∃ nodes id', parseSeqs fuel (ts ++ rest) id = .ok (nodes, rest, id') ∧
      ∀ truth, AnyHolds (leafHolds truth) nodes ↔ alts.Holds truth
  expr : ∀ ts (e : Expr ts) rest id, EndsExpr rest → 5 * ts.length + 4 ≤ fuel →
    ∃ node id', parseExpr fuel (ts ++ rest) id = .ok (node, rest, id') ∧
      ∀ truth, node.Holds (leafHolds truth) ↔ e.Holds truth

/-- One turn of the loop of `parse_term_seq`. -/
theorem reads_cons {fuel : Nat} (ih : ParserReads fuel) {ts rest : List Token} (f : Factor ts)
    (fs : Factors rest) (after : List Token) (id : Nat) (hafter : EndsSeq after)
    (hfuel : 5 * (ts ++ rest).length + 1 ≤ fuel) :
    ∃ node nodes id', parseFactors (fuel + 1) (ts ++ rest ++ after) id =
        .ok (node :: nodes, after, id') ∧
      ∀ truth, AllHold (leafHolds truth) (node :: nodes) ↔ f.Holds truth ∧ fs.Holds truth := by
  have hpos := f.length_pos
  rw [List.length_append] at hfuel
  obtain ⟨node, id1, hrun1, hholds1⟩ := ih.factor ts f (rest ++ after) id (by omega)
  obtain ⟨nodes, id2, hrun2, _, hholds2⟩ := ih.factors rest fs after id1 hafter (by omega)
  refine ⟨node, nodes, id2, ?_, fun truth => ?_⟩
  · obtain ⟨t, ts', rfl, ht⟩ := f.head
    rw [List.append_assoc]
    rw [List.cons_append] at hrun1 ⊢
    rw [parseFactors, if_neg ht, hrun1]
    simp only [Outcome.bind, hrun2]
  · rw [AllHold, hholds1 truth, hholds2 truth]

section Reads

variable {fuel : Nat} {ts rest : List Token}

theorem ParserReads.factor_reads (ih : ParserReads fuel) (f : Factor ts) (id : Nat)
    (hfuel : 5 * ts.length + 1 ≤ fuel + 1) :
    ∃ node id', parseFactor (fuel + 1) (ts ++ rest) id = .ok (node, rest, id') ∧
      ∀ truth, node.Holds (leafHolds truth) ↔ f.Holds truth := by
  cases f with
  | word t ht =>
    refine ⟨wordToken false t id, id + 1, ?_, fun truth => Iff.rfl⟩
    rw [List.singleton_append, parseFactor, ht]
  | phrase t ht =>
    refine ⟨wordToken true t id, id + 1, ?_, fun truth => Iff.rfl⟩
    rw [List.singleton_append, parseFactor, ht]
  | @not ts minus hminus f =>
    rw [List.length_cons] at hfuel
    obtain ⟨node, id1, hrun, hholds⟩ := ih.factor ts f rest id (by omega)
    refine ⟨negateAst node, id1, ?_, fun truth => ?_⟩
    · rw [List.cons_append, parseFactor, hminus]
      simp only [hrun, Outcome.bind]
    · rw [negateAst_holds, hholds truth, Factor.Holds]
  | @group ts left hleft e right hright =>
    rw [List.length_cons, List.length_append, List.length_singleton] at hfuel
    have hends : EndsExpr (right :: rest) := by
      intro t ht
      cases ht
      exact hright
    obtain ⟨node, id1, hrun, hholds⟩ := ih.expr ts e (right :: rest) id hends (by omega)
    refine ⟨node, id1, ?_, fun truth => ?_⟩
    · rw [List.cons_append, List.append_assoc, List.singleton_append, parseFactor, hleft]
      simp only [hrun, Outcome.bind, hright, ne_eq, not_true_eq_false, if_false]
    · rw [hholds truth, Factor.Holds]

theorem ParserReads.factors_read (ih : ParserReads fuel) (fs : Factors ts) (id : Nat)
    (hrest : EndsSeq rest) (hfuel : 5 * ts.length + 2 ≤ fuel + 1) :
    ∃ nodes id', parseFactors (fuel + 1) (ts ++ rest) id = .ok (nodes, rest, id') ∧
      (nodes = [] → ts = []) ∧ ∀ truth, AllHold (leafHolds truth) nodes ↔ fs.Holds truth := by
  cases fs with
  | nil => exact ⟨[], id, parseFactors_stop fuel id hrest, fun _ => rfl, fun truth => Iff.rfl⟩
  | cons f fs =>
    obtain ⟨node, nodes, id', hrun, hholds⟩ := reads_cons ih f fs rest id hrest (by omega)
    refine ⟨node :: nodes, id', hrun, fun hnil => absurd hnil (List.cons_ne_nil _ _), ?_⟩
    exact fun truth => (hholds truth).trans Iff.rfl

theorem ParserReads.termSeq_reads (ih : ParserReads fuel) (t : TermSeq ts) (id : Nat)
    (hrest : EndsSeq rest) (hfuel : 5 * ts.length + 3 ≤ fuel + 1) :
    ∃ node id', parseTermSeq (fuel + 1) (ts ++ rest) id = .ok (node, rest, id') ∧
      ∀ truth, node.Holds (leafHolds truth) ↔ t.Holds truth := by
  cases t with
  | mk f fs =>
    obtain ⟨nodes, id', hrun, hnil, hholds⟩ :=
      ih.factors _ (.cons f fs) rest id hrest (by omega)
    have hne : nodes ≠ [] := by
      intro h
      have hpos := (TermSeq.mk f fs).length_pos
      rw [hnil h] at hpos
      exact absurd hpos (by decide)
    refine ⟨single .and nodes, id', ?_, fun truth => ?_⟩
    · rw [parseTermSeq, hrun]
      simp only [Outcome.bind, if_neg hne]
    · rw [single_and_holds _ hne, hholds truth, Factors.Holds, TermSeq.Holds]

theorem ParserReads.seqs_read (ih : ParserReads fuel) (alts : Alternatives ts) (id : Nat)
    (hrest : EndsExpr rest) (hfuel : 5 * ts.length + 1 ≤ fuel + 1) :
    ∃ nodes id', parseSeqs (fuel + 1) (ts ++ rest) id = .ok (nodes, rest, id') ∧
      ∀ truth, AnyHolds (leafHolds truth) nodes ↔ alts.Holds truth := by
  cases alts with
  | nil => exact ⟨[], id, parseSeqs_stop fuel id hrest, fun truth => Iff.rfl⟩
  | @cons ts ts' pipe hpipe t alts =>
    rw [List.length_cons, List.length_append] at hfuel
    obtain ⟨node, id1, hrun1, hholds1⟩ := ih.termSeq ts t (ts' ++ rest) id
      (endsSeq_alternatives alts hrest) (by omega)
    obtain ⟨nodes, id2, hrun2, hholds2⟩ := ih.seqs ts' alts rest id1 hrest (by omega)
    refine ⟨node :: nodes, id2, ?_, fun truth => ?_⟩
    · rw [List.cons_append, List.append_assoc, parseSeqs, if_pos hpipe, hrun1]
      simp only [Outcome.bind, hrun2]
    · rw [AnyHolds, hholds1 truth, hholds2 truth, Alternatives.Holds]

theorem ParserReads.expr_reads (ih : ParserReads fuel) (e : Expr ts) (id : Nat)
    (hrest : EndsExpr rest) (hfuel : 5 * ts.length + 4 ≤ fuel + 1) :
    ∃ node id', parseExpr (fuel + 1) (ts ++ rest) id = .ok (node, rest, id') ∧
      ∀ truth, node.Holds (leafHolds truth) ↔ e.Holds truth := by
  cases e with
  | @mk ts ts' t alts =>
    rw [List.length_append] at hfuel
    obtain ⟨node, id1, hrun1, hholds1⟩ := ih.termSeq ts t (ts' ++ rest) id
      (endsSeq_alternatives alts hrest) (by omega)
    obtain ⟨nodes, id2, hrun2, hholds2⟩ := ih.seqs ts' alts rest id1 hrest (by omega)
    refine ⟨single .or (node :: nodes), id2, ?_, fun truth => ?_⟩
    · rw [List.append_assoc, parseExpr, hrun1]
      simp only [Outcome.bind, hrun2]
    · rw [single_or_holds _ (List.cons_ne_nil _ _), AnyHolds, hholds1 truth, hholds2 truth,
        Expr.Holds]

theorem parser_reads (fuel : Nat) : ParserReads fuel := by
  induction fuel with
  | zero =>
    exact ⟨fun _ _ _ _ h => by omega, fun _ _ _ _ _ h => by omega, fun _ _ _ _ _ h => by omega,
      fun _ _ _ _ _ h => by omega, fun _ _ _ _ _ h => by omega⟩
  | succ fuel ih =>
    exact ⟨fun _ f _ id => ih.factor_reads f id, fun _ fs _ id => ih.factors_read fs id,
      fun _ t _ id => ih.termSeq_reads t id, fun _ alts _ id => ih.seqs_read alts id,
      fun _ e _ id => ih.expr_reads e id⟩

end Reads

/-! ## The grammar of a query -/

/-- `parse_expr` always ends. It consumes the whole list exactly when the list is a word of the
grammar, and what it returns then says what every derivation of the list says. -/
theorem parser_reads_the_grammar (ts : List Token) (id : Nat) :
    parseExpr (parseFuel ts) ts id ≠ .outOfFuel ∧
    ((∃ ast id', parseExpr (parseFuel ts) ts id = .ok (ast, [], id')) ↔ Nonempty (Expr ts)) ∧
      ∀ ast id', parseExpr (parseFuel ts) ts id = .ok (ast, [], id') →
        ∀ (e : Expr ts) (truth : Assignment), ast.Holds (leafHolds truth) ↔ e.Holds truth := by
  have hreads (e : Expr ts) : ∃ node id', parseExpr (parseFuel ts) ts id = .ok (node, [], id') ∧
      ∀ truth, node.Holds (leafHolds truth) ↔ e.Holds truth := by
    have h := (parser_reads (parseFuel ts)).expr ts e [] id (fun t ht => by cases ht)
      (by unfold parseFuel; omega)
    rwa [List.append_nil] at h
  refine ⟨(parser_ends _).expr ts id (by unfold parseFuel; omega), ⟨?_, ?_⟩, ?_⟩
  · rintro ⟨ast, id', hrun⟩
    obtain ⟨before, hts, he⟩ := (parser_derives _).expr _ _ _ _ _ hrun
    rw [List.append_nil] at hts
    rwa [hts]
  · rintro ⟨e⟩
    obtain ⟨node, id', hrun, _⟩ := hreads e
    exact ⟨node, id', hrun⟩
  · intro ast id' hrun e truth
    obtain ⟨node, id1, hrun1, hholds⟩ := hreads e
    rw [hrun] at hrun1
    cases hrun1
    exact hholds truth

end seamus.query_grammar
