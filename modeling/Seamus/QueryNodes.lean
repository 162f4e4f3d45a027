-- What the nodes of a query tree still find: by `probe`, and by the next call of `next_doc`. Both
-- are kept in terms of the docs that were not passed.
import Seamus.QueryProbes
import Seamus.Library.Aligned

open cursor aligned seamus.index seamus.isr seamus.loaded_index seamus.post_streams
  seamus.phrase_query seamus.expressions seamus.query_grammar seamus.query_isr seamus.query_leaves
  seamus.query_probes

namespace seamus.query_nodes

variable {c : Chunk}

/-! ## Leaves -/

/-- The node of a leaf with its streams. -/
inductive LeafOf (t : TermData) : QueryISR → List IndexStreamReader → Prop
  | term (r : IndexStreamReader) (h : t.isPhrase = false) : LeafOf t (.term t.isNegated r) [r]
  | phrase (streams : List IndexStreamReader) (h : t.isPhrase = true) :
    LeafOf t (.phrase ⟨t.isNegated, streams⟩) streams

/-- A leaf that stands in a doc and has passed no match in a doc from `lowest` on. -/
def LeafStands (c : Chunk) (t : TermData) (lowest last : Nat) (node : QueryISR) : Prop :=
  ∃ streams, LeafOf t node streams ∧
    match leafWords t with
    | [] => streams = []
    | word :: others => ∃ cur first rest, streams = first :: rest ∧
        Stand c word others lowest cur first rest ∧ cur.current.doc = last

theorem LeafOf.streams {t : TermData} {node : QueryISR} {streams : List IndexStreamReader}
    (h : LeafOf t node streams) : streamsOf node = streams := by
  cases h <;> rfl

/-- The word of a term is a phrase of one word. -/
theorem LeafOf.probe {t : TermData} {node : QueryISR} {streams streams' : List IndexStreamReader}
    {doc : Nat} {found : Bool} (h : LeafOf t node streams)
    (hprobe : PhraseISR.probe doc ⟨t.isNegated, streams⟩ =
      some (found, ⟨t.isNegated, streams'⟩)) :
    ∃ node', query_isr.probe doc node = some (found, node') ∧ LeafOf t node' streams' := by
  cases h with
  | term r hword =>
    rw [PhraseISR.probe] at hprobe
    dsimp only at hprobe
    have hone : ([] : List IndexStreamReader).length = 0 := rfl
    rw [if_pos hone] at hprobe
    refine ⟨.term t.isNegated (advanceTo doc r).2, ?_, ?_⟩
    · rw [query_isr.probe]
      split at hprobe
      · rename_i hne
        cases hprobe
        cases t.isNegated <;> simp [hne]
      · rename_i heq
        cases hprobe
        cases t.isNegated <;> simp_all
    · split at hprobe <;> cases hprobe <;> exact .term _ hword
  | phrase streams hphrase =>
    refine ⟨.phrase ⟨t.isNegated, streams'⟩, ?_, .phrase _ hphrase⟩
    rw [query_isr.probe, hprobe]
    rfl

theorem LeafOf.nextDoc {t : TermData} {node : QueryISR} {streams streams' : List IndexStreamReader}
    {doc : Nat} (levels : Nat) (h : LeafOf t node streams)
    (hnext : PhraseISR.nextDoc ⟨t.isNegated, streams⟩ = some (doc, ⟨t.isNegated, streams'⟩)) :
    ∃ node', query_isr.nextDoc (levels + 1) node = some (doc, node') ∧ LeafOf t node' streams' := by
  cases h with
  | term r hword =>
    have hloop : nextDocLoop ((advanceToNextDoc r).2.currLoc.length + 2) (advanceToNextDoc r).1
        (advanceToNextDoc r).2 [] = some ((advanceToNextDoc r).1.doc, [(advanceToNextDoc r).2]) := by
      rw [nextDocLoop]
      split
      · rename_i hzero
        rw [hzero]
      · rfl
    rw [PhraseISR.nextDoc] at hnext
    dsimp only at hnext
    rw [hloop, Option.map_some] at hnext
    cases hnext
    exact ⟨.term t.isNegated (advanceToNextDoc r).2, rfl, .term _ hword⟩
  | phrase streams hphrase =>
    refine ⟨.phrase ⟨t.isNegated, streams'⟩, ?_, .phrase _ hphrase⟩
    rw [query_isr.nextDoc, hnext]
    rfl

section Leaves

variable {t : TermData} {node : QueryISR} {lowest last doc : Nat}

theorem satisfies_term : Satisfies c (.term t) doc ↔
    if t.isNegated then ¬Occurs c doc t.isPhrase t.val else Occurs c doc t.isPhrase t.val := by
  unfold Satisfies
  rw [ASTNode.Holds, leafHolds]

/-- The matches that the first stream has not passed are those that are left. -/
theorem mem_left_iff {word : Bytes} {others : List Bytes} {cur : Cursor Post}
    {first : IndexStreamReader} {rest : List IndexStreamReader} {m : Post}
    (h : Stand c word others lowest cur first rest) (hm : m ∈ c.postings word) :
    m ∈ cur.left ↔ ¬m.Before (loc first) := by
  rw [h.tracks.current]
  constructor
  · intro hleft
    rcases List.mem_cons.mp hleft with rfl | hahead
    · unfold Post.Before
      omega
    · have hbefore := (List.pairwise_cons.mp h.ordered).1 m hahead
      unfold Post.Before at hbefore ⊢
      omega
  · intro hbefore
    obtain ⟨passed, hsplit⟩ := h.suffix
    have hwhole : m ∈ passed ++ cur.left := by
      rw [hsplit]
      exact List.mem_cons_of_mem _ hm
    rcases List.mem_append.mp hwhole with hpassed | hleft
    · have hordered := whole_ordered c word
      rw [← hsplit, List.pairwise_append] at hordered
      exact absurd (hordered.2.2 m hpassed cur.current List.mem_cons_self) hbefore
    · exact hleft

theorem mem_matchesIn {word : Bytes} {others : List Bytes} {m : Post}
    (hwords : leafWords t = word :: others) :
    m ∈ matchesIn c t doc ↔ m ∈ c.postings word ∧ m.doc = doc ∧ hit c others m = true := by
  unfold matchesIn
  rw [hwords]
  simp

/-- A probe comes in time when the match that it looks for is left, if there is one. -/
theorem inTime_iff {word : Bytes} {others : List Bytes} {cur : Cursor Post}
    {first : IndexStreamReader} {rest : List IndexStreamReader}
    (hwords : leafWords t = word :: others) (hleaf : LeafOf t node (first :: rest))
    (h : Stand c word others lowest cur first rest) (hdoc : 1 ≤ doc) :
    Probe.InTime c ⟨t, doc, node⟩ ↔ (t.isNegated = true →
      hasHit c others (c.postings word) doc = true → hasHit c others cur.left doc = true) := by
  have hsome : matchesIn c t doc ≠ [] ↔ hasHit c others (c.postings word) doc = true := by
    rw [← List.isEmpty_eq_false_iff, List.isEmpty_eq_false_iff_exists_mem, hasHit_iff]
    exact exists_congr fun m => mem_matchesIn hwords
  unfold Probe.InTime
  simp only [hsome, hleaf.streams, List.head?_cons, Option.mem_def, Option.some.injEq,
    exists_eq_left']
  refine imp_congr_right fun _ => imp_congr_right fun _ => ?_
  rw [hasHit_iff]
  constructor
  · rintro ⟨m, hm, hbefore⟩
    obtain ⟨hpost, hmdoc, hhit⟩ := (mem_matchesIn hwords).mp hm
    exact ⟨m, (mem_left_iff h hpost).mpr hbefore, hmdoc, hhit⟩
  · rintro ⟨m, hleft, hmdoc, hhit⟩
    have hpost : m ∈ c.postings word := by
      rcases List.mem_cons.mp (h.suffix.subset hleft) with rfl | hpost
      · exact absurd hmdoc (Nat.ne_of_lt hdoc)
      · exact hpost
    exact ⟨m, (mem_matchesIn hwords).mpr ⟨hpost, hmdoc, hhit⟩, (mem_left_iff h hpost).mp hleft⟩

/-- A leaf is found wrongly by the probes that come too late, and by no others. -/
theorem leaf_probe (h : LeafStands c t lowest last node) (hdoc : 1 ≤ doc) :
    ∃ found node' last', probe doc node = some (found, node') ∧
      LeafStands c t (max lowest doc) last' node' ∧
      ((found = true → Satisfies c (.term t) doc) ↔ Probe.InTime c ⟨t, doc, node⟩) ∧
      (Satisfies c (.term t) doc → (Occurs c doc t.isPhrase t.val → lowest ≤ doc) →
        found = true) := by
  obtain ⟨streams, hleaf, hstands⟩ := h
  rw [satisfies_term]
  cases hwords : leafWords t with
  | nil =>
    rw [hwords] at hstands
    obtain rfl : streams = [] := hstands
    have hprobe : PhraseISR.probe doc ⟨t.isNegated, []⟩ = some (t.isNegated, ⟨t.isNegated, []⟩) :=
      rfl
    obtain ⟨node', hrun, hleaf'⟩ := hleaf.probe hprobe
    have hnone : matchesIn c t doc = [] := by rw [matchesIn, hwords]
    refine ⟨t.isNegated, node', last, hrun, ⟨[], hleaf', by rw [hwords]⟩, ?_, ?_⟩
    · refine iff_of_true (fun hneg => ?_) fun _ hsome => absurd hnone hsome
      rw [if_pos hneg]
      exact not_occurs hwords doc
    · intro hsat _
      by_contra hneg
      rw [if_neg hneg] at hsat
      exact not_occurs hwords doc hsat
  | cons word others =>
    rw [hwords] at hstands
    obtain ⟨cur, first, rest, rfl, hstand, -⟩ := hstands
    obtain ⟨cur', first', rest', hprobe, hstand'⟩ := hstand.probe t.isNegated hdoc
    obtain ⟨node', hrun, hleaf'⟩ := hleaf.probe hprobe
    have hstands' : LeafStands c t (max lowest doc) cur'.current.doc node' :=
      ⟨first' :: rest', hleaf', by rw [hwords]; exact ⟨cur', first', rest', rfl, hstand', rfl⟩⟩
    have hpast : hasHit c others cur.left doc = true →
        hasHit c others (c.postings word) doc = true :=
      fun hhas => hasHit_whole hdoc (hasHit_of_suffix hstand.suffix hhas)
    rw [inTime_iff hwords hleaf hstand hdoc, occurs_iff hwords doc]
    refine ⟨_, node', cur'.current.doc, hrun, hstands', ?_, ?_⟩
    · cases hneg : t.isNegated with
      | false =>
        refine iff_of_true (fun hfound => ?_) fun htrue => absurd htrue Bool.false_ne_true
        rw [Bool.bne_false] at hfound
        exact hpast hfound
      | true =>
        rw [Bool.bne_true, Bool.not_eq_true']
        constructor
        · intro hsound _ hin
          by_contra hhas
          exact hsound (Bool.not_eq_true _ ▸ hhas) hin
        · intro htime hfound hin
          rw [htime rfl hin] at hfound
          cases hfound
    · intro hsat hlowest
      cases hneg : t.isNegated with
      | false =>
        rw [hneg] at hsat
        rw [Bool.bne_false]
        exact hstand.keeps doc (hlowest hsat) hsat
      | true =>
        rw [hneg] at hsat
        rw [Bool.bne_true, Bool.not_eq_true']
        by_contra hhas
        exact hsat (hpast (Bool.not_eq_false _ ▸ hhas))

/-- The next doc of a plain leaf. A negated one goes on in the same way. -/
theorem leaf_nextDoc (levels : Nat) (h : LeafStands c t lowest last node)
    (hlowest : lowest ≤ max 1 last) :
    ∃ doc node' last', nextDoc (levels + 1) node = some (doc, node') ∧
      LeafStands c t (max 1 (last + 1)) last' node' ∧
      (doc = 0 ∧ (∀ x, last < x → ¬Occurs c x t.isPhrase t.val) ∨
        last < doc ∧ doc ≤ DOCS_PER_INDEX_CHUNK ∧ last' = doc ∧ Occurs c doc t.isPhrase t.val ∧
          ∀ x, last < x → x < doc → ¬Occurs c x t.isPhrase t.val) := by
  obtain ⟨streams, hleaf, hstands⟩ := h
  cases hwords : leafWords t with
  | nil =>
    rw [hwords] at hstands
    obtain rfl : streams = [] := hstands
    have hnext : PhraseISR.nextDoc ⟨t.isNegated, []⟩ = some (0, ⟨t.isNegated, []⟩) := rfl
    obtain ⟨node', hrun, hleaf'⟩ := hleaf.nextDoc levels hnext
    exact ⟨0, node', last, hrun, ⟨[], hleaf', by rw [hwords]⟩,
      Or.inl ⟨rfl, fun x _ => not_occurs hwords x⟩⟩
  | cons word others =>
    rw [hwords] at hstands
    obtain ⟨cur, first, rest, rfl, hstand, rfl⟩ := hstands
    obtain ⟨doc, cur', first', rest', hnext, hstand', hdoc⟩ := hstand.nextDoc t.isNegated
    obtain ⟨node', hrun, hleaf'⟩ := hleaf.nextDoc levels hnext
    have hstands' : LeafStands c t (max 1 (cur.current.doc + 1)) cur'.current.doc node' := by
      refine ⟨first' :: rest', hleaf', ?_⟩
      rw [hwords]
      exact ⟨cur', first', rest', rfl, hstand'.mono (by omega), rfl⟩
    have hsame (x : Nat) (hx : cur.current.doc < x) :
        Occurs c x t.isPhrase t.val ↔ hasHit c others cur.left x = true := by
      rw [occurs_iff hwords x]
      constructor
      · exact hstand.keeps x (by omega)
      · exact fun hhas => hasHit_whole (by omega) (hasHit_of_suffix hstand.suffix hhas)
    refine ⟨doc, node', cur'.current.doc, hrun, hstands', ?_⟩
    rcases hdoc with ⟨hzero, hnone⟩ | ⟨hcur, hbound, ⟨hlt, hhas⟩, hleast⟩
    · refine Or.inl ⟨hzero, fun x hx hin => ?_⟩
      rw [hsame x hx, hnone x hx] at hin
      cases hin
    · refine Or.inr ⟨hlt, hbound, hcur.symm, (hsame doc hlt).mpr hhas, fun x hx hxdoc hin => ?_⟩
      have hle : doc ≤ x := hleast ⟨hx, (hsame x hx).mp hin⟩
      omega

end Leaves

/-! ## Nodes -/

/-- The node still finds all docs of `D` that satisfy its tree, when it is probed. -/
def Keeps (c : Chunk) : Nat → ASTNode → QueryISR → (Nat → Prop) → Prop
  | 0, _, _, _ => False
  | _ + 1, .term t, node, D =>
    ∃ lowest last, LeafStands c t lowest last node ∧
      ∀ doc, D doc → Satisfies c (.term t) doc → Occurs c doc t.isPhrase t.val → lowest ≤ doc
  | levels + 1, .and asts, .and children _, D =>
    List.Forall₂ (fun ast t => Keeps c levels ast t fun doc => D doc ∧ Satisfies c (.and asts) doc)
      asts children
  | levels + 1, .or asts, .or children _ _, D =>
    List.Forall₂ (fun ast t => Keeps c levels ast t D) asts children
  | _, _, _, _ => False

/-- The doc that a call of `next_doc` gave when the docs from `lowest` on were left. -/
def Next (c : Chunk) (finds : ASTNode → QueryISR → Nat → Prop)
    (keeps : ASTNode → QueryISR → (Nat → Prop) → Prop) (lowest : Nat) (ast : ASTNode)
    (t : QueryISR) (doc : Nat) : Prop :=
  (doc = 0 ∧ (∀ x, lowest ≤ x → ¬Satisfies c ast x) ∧ keeps ast t fun _ => False) ∨
    (lowest ≤ doc ∧ doc ≤ DOCS_PER_INDEX_CHUNK ∧ finds ast t doc ∧ Satisfies c ast doc ∧
      ∀ x, lowest ≤ x → x < doc → ¬Satisfies c ast x)

/-- The next call of `next_doc` gives the first doc after `last` that satisfies the tree. -/
def Finds (c : Chunk) : Nat → ASTNode → QueryISR → Nat → Prop
  | 0, _, _, _ => False
  | _ + 1, .term t, node, last =>
    t.isNegated = false ∧ LeafStands c t (max 1 last) last node
  | levels + 1, .and asts, .and children (some i), last =>
    Driven (fun ast t => Keeps c levels ast t fun doc =>
        max 1 last ≤ doc ∧ Satisfies c (.and asts) doc)
      (fun ast t => Finds c levels ast t last) i asts children
  | levels + 1, .or asts, .or children docs pending, last =>
    pending = last ∧
      Forall₃ (Next c (Finds c levels) (Keeps c levels) (max 1 last)) asts children docs
  | _, _, _, _ => False

theorem allHold_iff (leaf : TermData → Prop) (asts : List ASTNode) :
    AllHold leaf asts ↔ ∀ ast ∈ asts, ast.Holds leaf := by
  induction asts with
  | nil => simp [AllHold]
  | cons ast asts ih => simp [AllHold, ih]

theorem satisfies_and {asts : List ASTNode} {doc : Nat} :
    Satisfies c (.and asts) doc ↔ ∀ ast ∈ asts, Satisfies c ast doc := by
  unfold Satisfies
  rw [ASTNode.Holds, allHold_iff]

theorem satisfies_or {asts : List ASTNode} {doc : Nat} :
    Satisfies c (.or asts) doc ↔ ∃ ast ∈ asts, Satisfies c ast doc := by
  unfold Satisfies
  rw [ASTNode.Holds, anyHolds_iff]

theorem LeafStands.mono {t : TermData} {lowest lowest' last : Nat} {node : QueryISR}
    (h : LeafStands c t lowest last node) (hle : lowest ≤ lowest') :
    LeafStands c t lowest' last node := by
  obtain ⟨streams, hleaf, hstands⟩ := h
  refine ⟨streams, hleaf, ?_⟩
  cases hwords : leafWords t with
  | nil =>
    rw [hwords] at hstands
    exact hstands
  | cons word others =>
    rw [hwords] at hstands
    obtain ⟨cur, first, rest, hstreams, hstand, hlast⟩ := hstands
    exact ⟨cur, first, rest, hstreams, hstand.mono hle, hlast⟩

/-- Only the docs that satisfy the tree matter to a node. -/
theorem Keeps.mono {levels : Nat} {ast : ASTNode} {t : QueryISR} {D D' : Nat → Prop}
    (h : Keeps c levels ast t D) (hD : ∀ doc, D' doc → Satisfies c ast doc → D doc) :
    Keeps c levels ast t D' := by
  induction levels generalizing ast t D D' with
  | zero => cases h
  | succ levels ih =>
    cases ast with
    | term term =>
      obtain ⟨lowest, last, hleaf, hlowest⟩ := h
      exact ⟨lowest, last, hleaf, fun doc hdoc hsat => hlowest doc (hD doc hdoc hsat) hsat⟩
    | and asts =>
      cases t with
      | and children driver =>
        refine forall₂_mono h fun ast _ t hkeeps => ih hkeeps ?_
        exact fun doc hdoc _ => ⟨hD doc hdoc.1 hdoc.2, hdoc.2⟩
      | _ => cases h
    | or asts =>
      cases t with
      | or children docs pending =>
        refine forall₂_mono h fun ast hmem t hkeeps => ih hkeeps ?_
        exact fun doc hdoc hsat => hD doc hdoc (satisfies_or.mpr ⟨ast, hmem, hsat⟩)
      | _ => cases h

theorem Keeps.deepen {levels levels' : Nat} {ast : ASTNode} {t : QueryISR} {D : Nat → Prop}
    (h : Keeps c levels ast t D) (hle : levels ≤ levels') : Keeps c levels' ast t D := by
  induction levels generalizing levels' ast t D with
  | zero => cases h
  | succ levels ih =>
    obtain ⟨levels', rfl⟩ : ∃ n, levels' = n + 1 := ⟨levels' - 1, by omega⟩
    have hle' := Nat.le_of_succ_le_succ hle
    cases ast with
    | term term => exact h
    | and asts =>
      cases t with
      | and children driver => exact forall₂_mono h fun ast _ t hkeeps => ih hkeeps hle'
      | _ => cases h
    | or asts =>
      cases t with
      | or children docs pending => exact forall₂_mono h fun ast _ t hkeeps => ih hkeeps hle'
      | _ => cases h

theorem Next.imp {finds finds' : ASTNode → QueryISR → Nat → Prop}
    {keeps keeps' : ASTNode → QueryISR → (Nat → Prop) → Prop} {lowest doc : Nat} {ast : ASTNode}
    {t : QueryISR} (h : Next c finds keeps lowest ast t doc)
    (hfinds : finds ast t doc → finds' ast t doc) (hkeeps : ∀ D, keeps ast t D → keeps' ast t D) :
    Next c finds' keeps' lowest ast t doc := by
  rcases h with ⟨hzero, hnone, hkept⟩ | ⟨hle, hbound, hfound, hrest⟩
  · exact Or.inl ⟨hzero, hnone, hkeeps _ hkept⟩
  · exact Or.inr ⟨hle, hbound, hfinds hfound, hrest⟩

/-- Docs that do not satisfy the tree may be left out. -/
theorem Next.skip {finds : ASTNode → QueryISR → Nat → Prop}
    {keeps : ASTNode → QueryISR → (Nat → Prop) → Prop} {lowest lowest' doc : Nat} {ast : ASTNode}
    {t : QueryISR} (h : Next c finds keeps lowest' ast t doc) (hle : lowest ≤ lowest')
    (hskip : ∀ x, lowest ≤ x → x < lowest' → ¬Satisfies c ast x) :
    Next c finds keeps lowest ast t doc := by
  have hnone (x : Nat) (hx : lowest ≤ x) (hlater : lowest' ≤ x → ¬Satisfies c ast x) :
      ¬Satisfies c ast x := by
    rcases Nat.lt_or_ge x lowest' with hlt | hge
    · exact hskip x hx hlt
    · exact hlater hge
  rcases h with ⟨hzero, hall, hkept⟩ | ⟨hdoc, hbound, hfound, hsat, hbefore⟩
  · exact Or.inl ⟨hzero, fun x hx => hnone x hx (hall x), hkept⟩
  · refine Or.inr ⟨hle.trans hdoc, hbound, hfound, hsat, fun x hx hxdoc => ?_⟩
    exact hnone x hx fun hge => hbefore x hge hxdoc

/-- A doc that was given may be asked for once more, and so may one before it. -/
theorem Next.later {finds : ASTNode → QueryISR → Nat → Prop}
    {keeps : ASTNode → QueryISR → (Nat → Prop) → Prop} {lowest lowest' doc : Nat} {ast : ASTNode}
    {t : QueryISR} (h : Next c finds keeps lowest ast t doc) (hpos : 1 ≤ lowest)
    (hle : lowest ≤ lowest') (hdoc : doc ≠ 0 → lowest' ≤ doc) :
    Next c finds keeps lowest' ast t doc := by
  rcases h with ⟨hzero, hall, hkept⟩ | ⟨hlowest, hbound, hfound, hsat, hbefore⟩
  · exact Or.inl ⟨hzero, fun x hx => hall x (hle.trans hx), hkept⟩
  · refine Or.inr ⟨hdoc (by omega), hbound, hfound, hsat, fun x hx => ?_⟩
    exact hbefore x (hle.trans hx)

theorem Finds.deepen {levels levels' last : Nat} {ast : ASTNode} {t : QueryISR}
    (h : Finds c levels ast t last) (hle : levels ≤ levels') : Finds c levels' ast t last := by
  induction levels generalizing levels' ast t last with
  | zero => cases h
  | succ levels ih =>
    obtain ⟨levels', rfl⟩ : ∃ n, levels' = n + 1 := ⟨levels' - 1, by omega⟩
    have hle' := Nat.le_of_succ_le_succ hle
    cases ast with
    | term term => exact h
    | and asts =>
      cases t with
      | and children driver =>
        cases driver with
        | none => cases h
        | some i =>
          refine Driven.mono h ?_ ?_
          · exact fun ast _ t hkeeps => hkeeps.deepen hle'
          · exact fun ast _ t hfinds => ih hfinds hle'
      | _ => cases h
    | or asts =>
      cases t with
      | or children docs pending =>
        refine ⟨h.1, h.2.mono fun ast _ t doc _ hnext => ?_⟩
        exact hnext.imp (fun hfinds => ih hfinds hle') fun D hkeeps => hkeeps.deepen hle'
      | _ => cases h

/-- No doc from `lowest` on that satisfies the tree was passed on the way to the given one. -/
theorem Next.keeps {levels lowest doc : Nat} {ast : ASTNode} {t : QueryISR}
    (h : Next c (Finds c levels) (Keeps c levels) lowest ast t doc)
    (hfinds : Finds c levels ast t doc → Keeps c levels ast t fun x => max 1 doc ≤ x)
    (hpos : 1 ≤ lowest) : Keeps c levels ast t fun x => lowest ≤ x := by
  rcases h with ⟨_, hnone, hkept⟩ | ⟨hlowest, _, hfound, _, hbefore⟩
  · exact hkept.mono fun x hx hsat => hnone x hx hsat
  · refine (hfinds hfound).mono fun x hx hsat => ?_
    by_contra hlt
    exact hbefore x hx (by omega) hsat

/-- A node that finds the next doc also finds by `probe` the one that it gave last, and later ones. -/
theorem Finds.keeps {levels last : Nat} {ast : ASTNode} {t : QueryISR}
    (h : Finds c levels ast t last) : Keeps c levels ast t fun doc => max 1 last ≤ doc := by
  induction levels generalizing ast t last with
  | zero => cases h
  | succ levels ih =>
    cases ast with
    | term term => exact ⟨_, last, h.2, fun doc hdoc _ _ => hdoc⟩
    | and asts =>
      cases t with
      | and children driver =>
        cases driver with
        | none => cases h
        | some i =>
          refine Driven.all h fun ast _ t hfinds => (ih hfinds).mono ?_
          exact fun doc hdoc _ => hdoc.1
      | _ => cases h
    | or asts =>
      cases t with
      | or children docs pending =>
        exact h.2.pairs fun ast _ t doc _ hnext => hnext.keeps ih (Nat.le_max_left 1 last)
      | _ => cases h

/-! ## Driveable trees -/

theorem someDriveable_eq {asts : List ASTNode} {children : List QueryISR}
    (h : List.Forall₂ (fun ast t => isDriveable t = driveable ast) asts children) :
    anyDriveable children = someDriveable asts := by
  induction h with
  | nil => rfl
  | cons heq _ ih => rw [anyDriveable, someDriveable, heq, ih]

theorem eachDriveable_eq {asts : List ASTNode} {children : List QueryISR}
    (h : List.Forall₂ (fun ast t => isDriveable t = driveable ast) asts children) :
    allDriveable children = eachDriveable asts := by
  induction h with
  | nil => rfl
  | cons heq _ ih => rw [allDriveable, eachDriveable, heq, ih]

theorem Keeps.isDriveable {levels : Nat} {ast : ASTNode} {t : QueryISR} {D : Nat → Prop}
    (h : Keeps c levels ast t D) : query_isr.isDriveable t = driveable ast := by
  induction levels generalizing ast t D with
  | zero => cases h
  | succ levels ih =>
    cases ast with
    | term term =>
      obtain ⟨lowest, last, ⟨streams, hleaf, _⟩, _⟩ := h
      cases hleaf <;> rw [query_isr.isDriveable, driveable]
    | and asts =>
      cases t with
      | and children driver =>
        rw [query_isr.isDriveable, driveable]
        exact someDriveable_eq (forall₂_mono h fun ast _ t hk => ih hk)
      | _ => cases h
    | or asts =>
      cases t with
      | or children docs pending =>
        have hlength : asts.length = children.length := List.Forall₂.length_eq h
        rw [query_isr.isDriveable, driveable,
          eachDriveable_eq (forall₂_mono h fun ast _ t hk => ih hk), hlength]
      | _ => cases h

end seamus.query_nodes
