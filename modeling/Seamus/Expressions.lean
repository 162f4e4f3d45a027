-- Queries: the tokens, the parser and the syntax tree of `query/expressions.h`,
-- and what a syntax tree means.
import Seamus.Basic
import Mathlib.Data.List.Basic
import Mathlib.Tactic.Tauto

namespace seamus.expressions

/-! ## The syntax tree -/

structure TermData where
  val : Bytes
  isNegated : Bool
  isPhrase : Bool
  id : Nat
  deriving DecidableEq, Repr

inductive ASTNode where
  | term (t : TermData)
  | and (children : List ASTNode)
  | or (children : List ASTNode)

mutual

def negateAst : ASTNode → ASTNode
  | .term t => .term { t with isNegated := !t.isNegated }
  | .and children => .or (negateAll children)
  | .or children => .and (negateAll children)

def negateAll : List ASTNode → List ASTNode
  | [] => []
  | c :: cs => negateAst c :: negateAll cs

end

/-! ## The tokens -/

inductive TokenType where
  | word | phrase | lparen | rparen | pipe | minus
  deriving DecidableEq, Repr

structure Token where
  type : TokenType
  val : Bytes
  deriving DecidableEq, Repr

def isSpace (c : UInt8) : Bool := c = 32 || c = 9 || c = 10 || c = 13

/-- A character of a standard word: no space and none of `( ) | "`. -/
def isWordChar (c : UInt8) : Bool := !isSpace c && c ≠ 40 && c ≠ 41 && c ≠ 124 && c ≠ 34

/-- The loop of `tokenize`. Every turn takes a byte. -/
def tokenizeLoop : Nat → Bytes → List Token
  | 0, _ => []
  | turns + 1, str =>
    match str.dropWhile isSpace with
    | [] => []
    | c :: rest =>
      if c = 40 then ⟨.lparen, []⟩ :: tokenizeLoop turns rest
      else if c = 41 then ⟨.rparen, []⟩ :: tokenizeLoop turns rest
      else if c = 124 then ⟨.pipe, []⟩ :: tokenizeLoop turns rest
      else if c = 45 then ⟨.minus, []⟩ :: tokenizeLoop turns rest
      else if c = 34 then
        ⟨.phrase, rest.takeWhile (· ≠ 34)⟩ ::
          tokenizeLoop turns ((rest.dropWhile (· ≠ 34)).drop 1)
      else
        ⟨.word, (c :: rest).takeWhile isWordChar⟩ ::
          tokenizeLoop turns ((c :: rest).dropWhile isWordChar)

def tokenize (str : Bytes) : List Token := tokenizeLoop (str.length + 1) str

/-! ## The parser -/

abbrev ParseError := String

/-- What a call of the parser ends with. It always ends: see `parseExpr_ends`. -/
inductive Outcome (α : Type) where
  | ok (a : α)
  | throw (e : ParseError)
  | outOfFuel
  deriving DecidableEq

def Outcome.bind {α β : Type} (x : Outcome α) (f : α → Outcome β) : Outcome β :=
  match x with
  | .ok a => f a
  | .throw e => .throw e
  | .outOfFuel => .outOfFuel

/-- A parsed piece, the tokens after it, and the next term id. -/
abbrev Parsed (α : Type) := Outcome (α × List Token × Nat)

def wordToken (isPhrase : Bool) (t : Token) (id : Nat) : ASTNode :=
  .term ⟨t.val, false, isPhrase, id⟩

/-- `vector.size() == 1 ? vector[0] : node`. -/
def single (node : List ASTNode → ASTNode) : List ASTNode → ASTNode
  | [c] => c
  | cs => node cs

mutual

def parseFactor : Nat → List Token → Nat → Parsed ASTNode
  | 0, _, _ => .outOfFuel
  | _ + 1, [], _ => .throw "Unexpected end of query"
  | fuel + 1, t :: ts, id =>
    match t.type with
    | .minus => (parseFactor fuel ts id).bind fun (node, ts, id) => .ok (negateAst node, ts, id)
    | .lparen =>
      (parseExpr fuel ts id).bind fun (node, ts, id) =>
        match ts with
        | [] => .throw "Missing closing parenthesis ')'"
        | t :: ts =>
          if t.type ≠ .rparen then .throw "Missing closing parenthesis ')'" else .ok (node, ts, id)
    | .word => .ok (wordToken false t id, ts, id + 1)
    | .phrase => .ok (wordToken true t id, ts, id + 1)
    | .rparen | .pipe => .throw "Unexpected token encountered"
termination_by structural fuel => fuel

/-- The loop of `parse_term_seq`. -/
def parseFactors : Nat → List Token → Nat → Parsed (List ASTNode)
  | 0, _, _ => .outOfFuel
  | _ + 1, [], id => .ok ([], [], id)
  | fuel + 1, t :: ts, id =>
    if t.type = .pipe ∨ t.type = .rparen then .ok ([], t :: ts, id)
    else
      (parseFactor fuel (t :: ts) id).bind fun (node, ts, id) =>
        (parseFactors fuel ts id).bind fun (nodes, ts, id) => .ok (node :: nodes, ts, id)
termination_by structural fuel => fuel

def parseTermSeq : Nat → List Token → Nat → Parsed ASTNode
  | 0, _, _ => .outOfFuel
  | fuel + 1, ts, id =>
    (parseFactors fuel ts id).bind fun (factors, ts, id) =>
      if factors = [] then .throw "Empty term sequence" else .ok (single .and factors, ts, id)
termination_by structural fuel => fuel

/-- The loop of `parse_expr`. -/
def parseSeqs : Nat → List Token → Nat → Parsed (List ASTNode)
  | 0, _, _ => .outOfFuel
  | _ + 1, [], id => .ok ([], [], id)
  | fuel + 1, t :: ts, id =>
    if t.type = .pipe then
      (parseTermSeq fuel ts id).bind fun (node, ts, id) =>
        (parseSeqs fuel ts id).bind fun (nodes, ts, id) => .ok (node :: nodes, ts, id)
    else .ok ([], t :: ts, id)
termination_by structural fuel => fuel

def parseExpr : Nat → List Token → Nat → Parsed ASTNode
  | 0, _, _ => .outOfFuel
  | fuel + 1, ts, id =>
    (parseTermSeq fuel ts id).bind fun (seq, ts, id) =>
      (parseSeqs fuel ts id).bind fun (seqs, ts, id) => .ok (single .or (seq :: seqs), ts, id)
termination_by structural fuel => fuel

end

/-- More than the depth of the calls on these tokens. -/
def parseFuel (ts : List Token) : Nat := 5 * ts.length + 5

/-- The tokens of a whole query, with `g_term_id` from 0. -/
def parseTokens (ts : List Token) : Outcome ASTNode :=
  (parseExpr (parseFuel ts) ts 0).bind fun (ast, ts, _) =>
    if ts ≠ [] then .throw "Unexpected trailing tokens" else .ok ast

def parseQueryAst (query : Bytes) : Outcome ASTNode :=
  let tokens := tokenize query
  if tokens = [] then .throw "Empty query" else parseTokens tokens

/-! ## What a syntax tree means -/

mutual

/-- The tree holds when its leaves have these values. -/
def ASTNode.Holds (leaf : TermData → Prop) : ASTNode → Prop
  | .term t => leaf t
  | .and children => AllHold leaf children
  | .or children => AnyHolds leaf children

def AllHold (leaf : TermData → Prop) : List ASTNode → Prop
  | [] => True
  | c :: cs => c.Holds leaf ∧ AllHold leaf cs

def AnyHolds (leaf : TermData → Prop) : List ASTNode → Prop
  | [] => False
  | c :: cs => c.Holds leaf ∨ AnyHolds leaf cs

end

/-- The terms of a tree. -/
inductive ASTNode.HasTerm (t : TermData) : ASTNode → Prop
  | term : HasTerm t (.term t)
  | and {children : List ASTNode} {c : ASTNode} (hc : c ∈ children) (h : HasTerm t c) :
    HasTerm t (.and children)
  | or {children : List ASTNode} {c : ASTNode} (hc : c ∈ children) (h : HasTerm t c) :
    HasTerm t (.or children)

theorem anyHolds_iff (leaf : TermData → Prop) (cs : List ASTNode) :
    AnyHolds leaf cs ↔ ∃ c ∈ cs, c.Holds leaf := by
  induction cs with
  | nil => simp [AnyHolds]
  | cons c cs ih => simp [AnyHolds, ih]

/-! ## The laws of the parser -/

theorem Outcome.bind_ok {α β : Type} {x : Outcome α} {f : α → Outcome β} {b : β}
    (h : x.bind f = .ok b) : ∃ a, x = .ok a ∧ f a = .ok b := by
  cases x with
  | ok a => exact ⟨a, rfl, h⟩
  | throw e => cases h
  | outOfFuel => cases h

theorem Outcome.bind_ends {α β : Type} {x : Outcome α} {f : α → Outcome β} (hx : x ≠ .outOfFuel)
    (hf : ∀ a, x = .ok a → f a ≠ .outOfFuel) : x.bind f ≠ .outOfFuel := by
  cases x with
  | ok a => exact hf a rfl
  | throw e => exact fun h => by cases h
  | outOfFuel => exact absurd rfl hx

theorem negateAll_eq_map (cs : List ASTNode) : negateAll cs = cs.map negateAst := by
  induction cs with
  | nil => rfl
  | cons c cs ih => rw [negateAll, ih, List.map_cons]

/-- A negated tree has the words of the tree. -/
theorem hasTerm_negateAst (node : ASTNode) (t : TermData) (h : (negateAst node).HasTerm t) :
    ∃ t', node.HasTerm t' ∧ t'.val = t.val := by
  generalize hn : negateAst node = n at h
  induction h generalizing node with
  | term =>
    cases node with
    | term t' =>
      simp only [negateAst, ASTNode.term.injEq] at hn
      exact ⟨t', .term, by rw [← hn]⟩
    | and cs => simp [negateAst] at hn
    | or cs => simp [negateAst] at hn
  | @and children c hc _ ih =>
    cases node with
    | term t' => simp [negateAst] at hn
    | and cs => simp [negateAst] at hn
    | or cs =>
      simp only [negateAst, ASTNode.and.injEq, negateAll_eq_map] at hn
      obtain ⟨c', hc', rfl⟩ := List.mem_map.1 (hn ▸ hc)
      obtain ⟨t', ht', hval⟩ := ih c' rfl
      exact ⟨t', .or hc' ht', hval⟩
  | @or children c hc _ ih =>
    cases node with
    | term t' => simp [negateAst] at hn
    | or cs => simp [negateAst] at hn
    | and cs =>
      simp only [negateAst, ASTNode.or.injEq, negateAll_eq_map] at hn
      obtain ⟨c', hc', rfl⟩ := List.mem_map.1 (hn ▸ hc)
      obtain ⟨t', ht', hval⟩ := ih c' rfl
      exact ⟨t', .and hc' ht', hval⟩

theorem hasTerm_single_and (cs : List ASTNode) (t : TermData)
    (h : (single .and cs).HasTerm t) : ∃ c ∈ cs, c.HasTerm t := by
  match cs with
  | [] => cases h with | and hc _ => exact absurd hc List.not_mem_nil
  | [c] => exact ⟨c, List.mem_cons_self, h⟩
  | a :: b :: cs => cases h with | and hc h => exact ⟨_, hc, h⟩

theorem hasTerm_single_or (cs : List ASTNode) (t : TermData)
    (h : (single .or cs).HasTerm t) : ∃ c ∈ cs, c.HasTerm t := by
  match cs with
  | [] => cases h with | or hc _ => exact absurd hc List.not_mem_nil
  | [c] => exact ⟨c, List.mem_cons_self, h⟩
  | a :: b :: cs => cases h with | or hc h => exact ⟨_, hc, h⟩

/-- Every word of the tree is the word of a token. -/
def Sourced (ts : List Token) (node : ASTNode) : Prop :=
  ∀ t, node.HasTerm t → ∃ tok ∈ ts, (tok.type = .word ∨ tok.type = .phrase) ∧ tok.val = t.val

theorem Sourced.mono {ts ts' : List Token} {node : ASTNode} (h : Sourced ts node)
    (hsub : ts <:+ ts') : Sourced ts' node := by
  intro t ht
  obtain ⟨tok, hmem, hrest⟩ := h t ht
  exact ⟨tok, hsub.subset hmem, hrest⟩

/-- What a call leaves of the tokens: an end of them, with the words of the tree before it. -/
def Consumes (ts ts' : List Token) (nodes : List ASTNode) : Prop :=
  ts' <:+ ts ∧ (nodes ≠ [] → ts'.length < ts.length) ∧ ∀ node ∈ nodes, Sourced ts node

theorem Consumes.nil (ts : List Token) : Consumes ts ts [] :=
  ⟨List.suffix_refl ts, fun h => absurd rfl h, fun _ h => absurd h List.not_mem_nil⟩

theorem Consumes.cons {ts ts' ts'' : List Token} {node : ASTNode} {nodes : List ASTNode}
    (h : Consumes ts ts' [node]) (h' : Consumes ts' ts'' nodes) :
    Consumes ts ts'' (node :: nodes) := by
  obtain ⟨h1, h2, h3⟩ := h
  obtain ⟨h1', h2', h3'⟩ := h'
  refine ⟨h1'.trans h1, fun _ => ?_, ?_⟩
  · exact Nat.lt_of_le_of_lt h1'.length_le (h2 (by simp))
  · intro n hn
    rcases List.mem_cons.1 hn with rfl | hn
    · exact h3 n List.mem_cons_self
    · exact (h3' n hn).mono h1

/-- One token more in front. -/
theorem Consumes.after {ts ts' : List Token} {nodes : List ASTNode} (h : Consumes ts ts' nodes)
    (t : Token) : Consumes (t :: ts) ts' nodes := by
  obtain ⟨h1, h2, h3⟩ := h
  have hsuf := h1.trans (List.suffix_cons t ts)
  refine ⟨hsuf, fun hne => ?_, fun n hn => (h3 n hn).mono (List.suffix_cons t ts)⟩
  have := h2 hne
  rw [List.length_cons]
  omega

/-- The nodes made one, when the words stay. -/
theorem Consumes.one {ts ts' : List Token} {nodes : List ASTNode} {node : ASTNode}
    (h : Consumes ts ts' nodes) (hne : nodes ≠ [])
    (hwords : ∀ t, node.HasTerm t → ∃ c ∈ nodes, ∃ t', c.HasTerm t' ∧ t'.val = t.val) :
    Consumes ts ts' [node] := by
  obtain ⟨h1, h2, h3⟩ := h
  refine ⟨h1, fun _ => h2 hne, ?_⟩
  intro n hn t ht
  rw [List.mem_singleton.1 hn] at ht
  obtain ⟨c, hc, t', ht', hval⟩ := hwords t ht
  rw [← hval]
  exact h3 c hc t' ht'

theorem consumes_token (t : Token) (ts : List Token) (isPhrase : Bool) (id : Nat)
    (ht : t.type = .word ∨ t.type = .phrase) : Consumes (t :: ts) ts [wordToken isPhrase t id] := by
  refine ⟨List.suffix_cons t ts, fun _ => Nat.lt_succ_self _, ?_⟩
  intro n hn t' ht'
  rw [List.mem_singleton.1 hn, wordToken] at ht'
  cases ht'
  exact ⟨t, List.mem_cons_self, ht, rfl⟩

/-- What every function of the parser consumes when it succeeds with some fuel. -/
structure ParserConsumes (fuel : Nat) : Prop where
  factor : ∀ ts id node ts' id', parseFactor fuel ts id = .ok (node, ts', id') →
    Consumes ts ts' [node]
  factors : ∀ ts id nodes ts' id', parseFactors fuel ts id = .ok (nodes, ts', id') →
    Consumes ts ts' nodes
  termSeq : ∀ ts id node ts' id', parseTermSeq fuel ts id = .ok (node, ts', id') →
    Consumes ts ts' [node]
  seqs : ∀ ts id nodes ts' id', parseSeqs fuel ts id = .ok (nodes, ts', id') →
    Consumes ts ts' nodes
  expr : ∀ ts id node ts' id', parseExpr fuel ts id = .ok (node, ts', id') →
    Consumes ts ts' [node]

/-- For each function of the parser, a relation between the tokens before a call, the tokens
after it and what it returns. -/
structure Relations where
  factor : List Token → List Token → ASTNode → Prop
  factors : List Token → List Token → List ASTNode → Prop
  termSeq : List Token → List Token → ASTNode → Prop
  seqs : List Token → List Token → List ASTNode → Prop
  expr : List Token → List Token → ASTNode → Prop

/-- The relations hold of what the functions make of their parts. -/
structure ParserRule (P : Relations) : Prop where
  word : ∀ {t : Token} (ts id), t.type = .word → P.factor (t :: ts) ts (wordToken false t id)
  phrase : ∀ {t : Token} (ts id), t.type = .phrase → P.factor (t :: ts) ts (wordToken true t id)
  group : ∀ {t t' : Token} {ts ts' node}, t.type = .lparen → t'.type = .rparen →
    P.expr ts (t' :: ts') node → P.factor (t :: ts) ts' node
  negation : ∀ {t : Token} {ts ts' node}, t.type = .minus → P.factor ts ts' node →
    P.factor (t :: ts) ts' (negateAst node)
  noFactors : ∀ ts, P.factors ts ts []
  factors : ∀ {ts ts' ts'' node nodes}, P.factor ts ts' node → P.factors ts' ts'' nodes →
    P.factors ts ts'' (node :: nodes)
  termSeq : ∀ {ts ts' nodes}, nodes ≠ [] → P.factors ts ts' nodes →
    P.termSeq ts ts' (single .and nodes)
  noSeqs : ∀ ts, P.seqs ts ts []
  seqs : ∀ {t : Token} {ts ts' ts'' node nodes}, t.type = .pipe → P.termSeq ts ts' node →
    P.seqs ts' ts'' nodes → P.seqs (t :: ts) ts'' (node :: nodes)
  expr : ∀ {ts ts' ts'' node nodes}, P.termSeq ts ts' node → P.seqs ts' ts'' nodes →
    P.expr ts ts'' (single .or (node :: nodes))

/-- The relations hold of every function that succeeds with some fuel. -/
structure ParserGives (P : Relations) (fuel : Nat) : Prop where
  factor : ∀ ts id node ts' id', parseFactor fuel ts id = .ok (node, ts', id') →
    P.factor ts ts' node
  factors : ∀ ts id nodes ts' id', parseFactors fuel ts id = .ok (nodes, ts', id') →
    P.factors ts ts' nodes
  termSeq : ∀ ts id node ts' id', parseTermSeq fuel ts id = .ok (node, ts', id') →
    P.termSeq ts ts' node
  seqs : ∀ ts id nodes ts' id', parseSeqs fuel ts id = .ok (nodes, ts', id') →
    P.seqs ts ts' nodes
  expr : ∀ ts id node ts' id', parseExpr fuel ts id = .ok (node, ts', id') → P.expr ts ts' node

section Gives

variable {P : Relations} {fuel : Nat} {ts ts' : List Token} {id id' : Nat} {node : ASTNode}
  {nodes : List ASTNode}

theorem parserGives_zero (P : Relations) : ParserGives P 0 := by
  refine ⟨?_, ?_, ?_, ?_, ?_⟩
  · intro ts id node ts' id' h
    rw [parseFactor] at h
    cases h
  · intro ts id nodes ts' id' h
    rw [parseFactors] at h
    cases h
  · intro ts id node ts' id' h
    rw [parseTermSeq] at h
    cases h
  · intro ts id nodes ts' id' h
    rw [parseSeqs] at h
    cases h
  · intro ts id node ts' id' h
    rw [parseExpr] at h
    cases h

theorem ParserRule.gives_factor (hP : ParserRule P) (ih : ParserGives P fuel)
    (h : parseFactor (fuel + 1) ts id = .ok (node, ts', id')) : P.factor ts ts' node := by
  cases ts with
  | nil =>
    rw [parseFactor] at h
    cases h
  | cons t ts =>
    rw [parseFactor] at h
    cases htype : t.type with
    | word =>
      rw [htype] at h
      cases h
      exact hP.word _ id htype
    | phrase =>
      rw [htype] at h
      cases h
      exact hP.phrase _ id htype
    | lparen =>
      rw [htype] at h
      obtain ⟨⟨node1, ts1, id1⟩, hrun, hrest⟩ := Outcome.bind_ok h
      cases ts1 with
      | nil => cases hrest
      | cons t1 ts1 =>
        simp only at hrest
        split at hrest
        · cases hrest
        · rename_i hright
          cases hrest
          exact hP.group htype (not_not.mp hright) (ih.expr _ _ _ _ _ hrun)
    | rparen => rw [htype] at h; cases h
    | pipe => rw [htype] at h; cases h
    | minus =>
      rw [htype] at h
      obtain ⟨⟨node1, ts1, id1⟩, hrun, hrest⟩ := Outcome.bind_ok h
      cases hrest
      exact hP.negation htype (ih.factor _ _ _ _ _ hrun)

theorem ParserRule.gives_factors (hP : ParserRule P) (ih : ParserGives P fuel)
    (h : parseFactors (fuel + 1) ts id = .ok (nodes, ts', id')) : P.factors ts ts' nodes := by
  cases ts with
  | nil =>
    rw [parseFactors] at h
    cases h
    exact hP.noFactors _
  | cons t ts =>
    rw [parseFactors] at h
    split at h
    · cases h
      exact hP.noFactors _
    · obtain ⟨⟨node1, ts1, id1⟩, hrun1, h⟩ := Outcome.bind_ok h
      obtain ⟨⟨nodes2, ts2, id2⟩, hrun2, hrest⟩ := Outcome.bind_ok h
      cases hrest
      exact hP.factors (ih.factor _ _ _ _ _ hrun1) (ih.factors _ _ _ _ _ hrun2)

theorem ParserRule.gives_termSeq (hP : ParserRule P) (ih : ParserGives P fuel)
    (h : parseTermSeq (fuel + 1) ts id = .ok (node, ts', id')) : P.termSeq ts ts' node := by
  rw [parseTermSeq] at h
  obtain ⟨⟨nodes1, ts1, id1⟩, hrun, hrest⟩ := Outcome.bind_ok h
  simp only at hrest
  split at hrest
  · cases hrest
  · rename_i hne
    cases hrest
    exact hP.termSeq hne (ih.factors _ _ _ _ _ hrun)

theorem ParserRule.gives_seqs (hP : ParserRule P) (ih : ParserGives P fuel)
    (h : parseSeqs (fuel + 1) ts id = .ok (nodes, ts', id')) : P.seqs ts ts' nodes := by
  cases ts with
  | nil =>
    rw [parseSeqs] at h
    cases h
    exact hP.noSeqs _
  | cons t ts =>
    rw [parseSeqs] at h
    split at h
    · rename_i hpipe
      obtain ⟨⟨node1, ts1, id1⟩, hrun1, h⟩ := Outcome.bind_ok h
      obtain ⟨⟨nodes2, ts2, id2⟩, hrun2, hrest⟩ := Outcome.bind_ok h
      cases hrest
      exact hP.seqs hpipe (ih.termSeq _ _ _ _ _ hrun1) (ih.seqs _ _ _ _ _ hrun2)
    · cases h
      exact hP.noSeqs _

theorem ParserRule.gives_expr (hP : ParserRule P) (ih : ParserGives P fuel)
    (h : parseExpr (fuel + 1) ts id = .ok (node, ts', id')) : P.expr ts ts' node := by
  rw [parseExpr] at h
  obtain ⟨⟨node1, ts1, id1⟩, hrun1, h⟩ := Outcome.bind_ok h
  obtain ⟨⟨nodes2, ts2, id2⟩, hrun2, hrest⟩ := Outcome.bind_ok h
  cases hrest
  exact hP.expr (ih.termSeq _ _ _ _ _ hrun1) (ih.seqs _ _ _ _ _ hrun2)

/-- The induction over the functions of the parser. -/
theorem ParserRule.gives (hP : ParserRule P) (fuel : Nat) : ParserGives P fuel := by
  induction fuel with
  | zero => exact parserGives_zero P
  | succ fuel ih =>
    exact ⟨fun _ _ _ _ _ => hP.gives_factor ih, fun _ _ _ _ _ => hP.gives_factors ih,
      fun _ _ _ _ _ => hP.gives_termSeq ih, fun _ _ _ _ _ => hP.gives_seqs ih,
      fun _ _ _ _ _ => hP.gives_expr ih⟩

end Gives

/-- A closing bracket is left out as well. -/
theorem Consumes.beforeParen {ts ts' : List Token} {node : ASTNode} {t : Token}
    (h : Consumes ts (t :: ts') [node]) : Consumes ts ts' [node] := by
  obtain ⟨h1, h2, h3⟩ := h
  refine ⟨(List.suffix_cons t ts').trans h1, fun hne => ?_, h3⟩
  have hlt := h2 hne
  rw [List.length_cons] at hlt
  omega

/-- Every function consumes what its parts do. -/
def consumes : Relations where
  factor ts ts' node := Consumes ts ts' [node]
  factors := Consumes
  termSeq ts ts' node := Consumes ts ts' [node]
  seqs := Consumes
  expr ts ts' node := Consumes ts ts' [node]

theorem consumes_rule : ParserRule consumes where
  word ts id ht := consumes_token _ ts false id (Or.inl ht)
  phrase ts id ht := consumes_token _ ts true id (Or.inr ht)
  group _ _ h := h.beforeParen.after _
  negation {t ts ts' node} _ h := by
    refine (h.one (by simp) ?_).after t
    intro t' ht'
    exact ⟨node, List.mem_cons_self, hasTerm_negateAst node t' ht'⟩
  noFactors := Consumes.nil
  factors := Consumes.cons
  termSeq hne h := by
    refine h.one hne ?_
    intro t ht
    obtain ⟨c, hc, hct⟩ := hasTerm_single_and _ t ht
    exact ⟨c, hc, t, hct, rfl⟩
  noSeqs := Consumes.nil
  seqs _ hnode hnodes := (hnode.cons hnodes).after _
  expr hnode hnodes := by
    refine (hnode.cons hnodes).one (by simp) ?_
    intro t ht
    obtain ⟨c, hc, hct⟩ := hasTerm_single_or _ t ht
    exact ⟨c, hc, t, hct, rfl⟩

theorem parser_consumes (fuel : Nat) : ParserConsumes fuel := by
  obtain ⟨hfactor, hfactors, htermSeq, hseqs, hexpr⟩ := consumes_rule.gives fuel
  exact ⟨hfactor, hfactors, htermSeq, hseqs, hexpr⟩

/-- The fuel that each function of the parser needs on so many tokens. -/
structure ParserEnds (fuel : Nat) : Prop where
  factor : ∀ ts id, 5 * ts.length + 1 ≤ fuel → parseFactor fuel ts id ≠ .outOfFuel
  factors : ∀ ts id, 5 * ts.length + 2 ≤ fuel → parseFactors fuel ts id ≠ .outOfFuel
  termSeq : ∀ ts id, 5 * ts.length + 3 ≤ fuel → parseTermSeq fuel ts id ≠ .outOfFuel
  seqs : ∀ ts id, 5 * ts.length + 1 ≤ fuel → parseSeqs fuel ts id ≠ .outOfFuel
  expr : ∀ ts id, 5 * ts.length + 4 ≤ fuel → parseExpr fuel ts id ≠ .outOfFuel

section Ends

variable {fuel : Nat} {ts : List Token}

theorem Consumes.shorter {ts' : List Token} {node : ASTNode} (h : Consumes ts ts' [node]) :
    ts'.length < ts.length := h.2.1 (List.cons_ne_nil _ _)

theorem ParserEnds.factor_ends (ih : ParserEnds fuel) (id : Nat)
    (hfuel : 5 * ts.length + 1 ≤ fuel + 1) : parseFactor (fuel + 1) ts id ≠ .outOfFuel := by
  cases ts with
  | nil =>
    intro h
    rw [parseFactor] at h
    cases h
  | cons t ts =>
    rw [List.length_cons] at hfuel
    rw [parseFactor]
    cases htype : t.type with
    | word => exact fun h => by cases h
    | phrase => exact fun h => by cases h
    | lparen =>
      refine Outcome.bind_ends (ih.expr ts id (by omega)) ?_
      rintro ⟨node1, ts1, id1⟩ -
      cases ts1 with
      | nil => exact fun h => by cases h
      | cons t1 ts1 =>
        simp only
        split
        · exact fun h => by cases h
        · exact fun h => by cases h
    | rparen => exact fun h => by cases h
    | pipe => exact fun h => by cases h
    | minus =>
      refine Outcome.bind_ends (ih.factor ts id (by omega)) ?_
      rintro ⟨node1, ts1, id1⟩ - h
      cases h

theorem ParserEnds.factors_end (ih : ParserEnds fuel) (id : Nat)
    (hfuel : 5 * ts.length + 2 ≤ fuel + 1) : parseFactors (fuel + 1) ts id ≠ .outOfFuel := by
  cases ts with
  | nil =>
    intro h
    rw [parseFactors] at h
    cases h
  | cons t ts =>
    rw [parseFactors]
    split
    · exact fun h => by cases h
    · refine Outcome.bind_ends (ih.factor (t :: ts) id (by omega)) ?_
      rintro ⟨node1, ts1, id1⟩ hrun
      have hlt := ((parser_consumes fuel).factor _ _ _ _ _ hrun).shorter
      refine Outcome.bind_ends (ih.factors ts1 id1 (by omega)) ?_
      rintro ⟨nodes2, ts2, id2⟩ - h
      cases h

theorem ParserEnds.termSeq_ends (ih : ParserEnds fuel) (id : Nat)
    (hfuel : 5 * ts.length + 3 ≤ fuel + 1) : parseTermSeq (fuel + 1) ts id ≠ .outOfFuel := by
  rw [parseTermSeq]
  refine Outcome.bind_ends (ih.factors ts id (by omega)) ?_
  rintro ⟨nodes1, ts1, id1⟩ -
  simp only
  split
  · exact fun h => by cases h
  · exact fun h => by cases h

theorem ParserEnds.seqs_end (ih : ParserEnds fuel) (id : Nat)
    (hfuel : 5 * ts.length + 1 ≤ fuel + 1) : parseSeqs (fuel + 1) ts id ≠ .outOfFuel := by
  cases ts with
  | nil =>
    intro h
    rw [parseSeqs] at h
    cases h
  | cons t ts =>
    rw [List.length_cons] at hfuel
    rw [parseSeqs]
    split
    · refine Outcome.bind_ends (ih.termSeq ts id (by omega)) ?_
      rintro ⟨node1, ts1, id1⟩ hrun
      have hlt := ((parser_consumes fuel).termSeq _ _ _ _ _ hrun).shorter
      refine Outcome.bind_ends (ih.seqs ts1 id1 (by omega)) ?_
      rintro ⟨nodes2, ts2, id2⟩ - h
      cases h
    · exact fun h => by cases h

theorem ParserEnds.expr_ends (ih : ParserEnds fuel) (id : Nat)
    (hfuel : 5 * ts.length + 4 ≤ fuel + 1) : parseExpr (fuel + 1) ts id ≠ .outOfFuel := by
  rw [parseExpr]
  refine Outcome.bind_ends (ih.termSeq ts id (by omega)) ?_
  rintro ⟨node1, ts1, id1⟩ hrun
  have hlt := ((parser_consumes fuel).termSeq _ _ _ _ _ hrun).shorter
  refine Outcome.bind_ends (ih.seqs ts1 id1 (by omega)) ?_
  rintro ⟨nodes2, ts2, id2⟩ - h
  cases h

theorem parser_ends (fuel : Nat) : ParserEnds fuel := by
  induction fuel with
  | zero =>
    exact ⟨fun _ _ h => by omega, fun _ _ h => by omega, fun _ _ h => by omega,
      fun _ _ h => by omega, fun _ _ h => by omega⟩
  | succ fuel ih =>
    exact ⟨fun _ id => ih.factor_ends id, fun _ id => ih.factors_end id,
      fun _ id => ih.termSeq_ends id, fun _ id => ih.seqs_end id, fun _ id => ih.expr_ends id⟩

end Ends

/-- The parser of a whole query always ends, with a tree or with an error. -/
theorem parseTokens_ends (ts : List Token) : parseTokens ts ≠ .outOfFuel := by
  refine Outcome.bind_ends ((parser_ends _).expr ts 0 (by unfold parseFuel; omega)) ?_
  rintro ⟨ast, ts', id⟩ -
  simp only
  split
  · exact fun h => by cases h
  · exact fun h => by cases h

/-- Every word of a parsed query is the word of one of its tokens. -/
theorem parseTokens_sourced (ts : List Token) (ast : ASTNode) (h : parseTokens ts = .ok ast) :
    Sourced ts ast := by
  obtain ⟨⟨ast', ts', id⟩, hrun, hrest⟩ := Outcome.bind_ok h
  simp only at hrest
  split at hrest
  · cases hrest
  · cases hrest
    exact ((parser_consumes _).expr _ _ _ _ _ hrun).2.2 ast List.mem_cons_self

/-- The tokenizer never makes an empty word. -/
theorem tokenizeLoop_word (turns : Nat) (str : Bytes) (tok : Token)
    (h : tok ∈ tokenizeLoop turns str) (hw : tok.type = .word) : tok.val ≠ [] := by
  induction turns generalizing str with
  | zero => exact absurd h List.not_mem_nil
  | succ turns ih =>
    rw [tokenizeLoop] at h
    cases hstr : str.dropWhile isSpace with
    | nil =>
      rw [hstr] at h
      exact absurd h List.not_mem_nil
    | cons c rest =>
      rw [hstr] at h
      simp only at h
      have hspace : isSpace c = false := by
        have := List.head?_dropWhile_not isSpace str
        rw [hstr] at this
        simpa using this
      split_ifs at h with h1 h2 h3 h4 h5
      all_goals rcases List.mem_cons.1 h with rfl | h
      all_goals first
        | exact ih _ h
        | cases hw
      have hc : isWordChar c = true := by
        simp [isWordChar, hspace, h1, h2, h3, h5]
      simp [hc]

theorem tokenize_word (query : Bytes) (tok : Token) (h : tok ∈ tokenize query)
    (hw : tok.type = .word) : tok.val ≠ [] :=
  tokenizeLoop_word _ _ _ h hw

end seamus.expressions
