-- The query engine under its condition: where no probe of a negated leaf comes too late, the calls
-- of `next_doc` give all docs that satisfy the query, in order, and no others.
import Seamus.ChunkQuery
import Seamus.QueryNodes

open cursor aligned seamus.index seamus.isr seamus.loaded_index seamus.post_streams
  seamus.phrase_query seamus.expressions seamus.query_grammar seamus.query_isr seamus.query_leaves
  seamus.query_probes seamus.query_nodes
open seamus.chunk_query (treeDocs)

namespace seamus.query_engine

variable {c : Chunk}

/-! ## Probes -/

/-- What a probe of a doc says, and what the node keeps after it. -/
def Tells (c : Chunk) (levels : Nat) (ast : ASTNode) (D : Nat → Prop) (doc : Nat)
    (result : Option (Bool × QueryISR)) : Prop :=
  ∃ found t, result = some (found, t) ∧ Keeps c levels ast t (fun x => D x ∧ doc ≤ x) ∧
    (found = true → Satisfies c ast doc) ∧ (D doc → Satisfies c ast doc → found = true)

section Probe

variable {levels doc i : Nat} {D : Nat → Prop} {asts : List ASTNode} {children : List QueryISR}
  {find : ASTNode → QueryISR → Prop}
  (hprobe : ∀ ast t D, Keeps c levels ast t D → (∀ p ∈ probed doc ast t, p.InTime c) →
    Tells c levels ast D doc (probe doc t))
include hprobe

theorem probeAll_tells (h : List.Forall₂ (fun ast t => Keeps c levels ast t D) asts children)
    (hintime : ∀ p ∈ probedAll doc asts children, p.InTime c) :
    ∃ found children', probeAll doc children = some (found, children') ∧
      List.Forall₂ (fun ast t => Keeps c levels ast t fun x => D x ∧ doc ≤ x) asts children' ∧
      (found = true → ∀ ast ∈ asts, Satisfies c ast doc) ∧
      (D doc → (∀ ast ∈ asts, Satisfies c ast doc) → found = true) := by
  induction h with
  | nil => exact ⟨true, [], rfl, .nil, by simp, by simp⟩
  | @cons ast t asts children hkeeps hrest ih =>
    rw [probedAll, List.forall_mem_append] at hintime
    obtain ⟨found, t', hrun, hkept, hsound, hcomplete⟩ := hprobe ast t D hkeeps hintime.1
    rw [hrun] at hintime
    rw [probeAll, hrun]
    cases found with
    | false =>
      refine ⟨false, t' :: children, rfl, .cons hkept ?_, by simp, ?_⟩
      · exact forall₂_mono hrest fun ast _ t hk => hk.mono fun x hx _ => hx.1
      · intro hD hall
        exact hcomplete hD (hall ast List.mem_cons_self)
    | true =>
      obtain ⟨found, children', hrun', hkept', hsound', hcomplete'⟩ := ih hintime.2
      dsimp only
      rw [hrun', Option.map_some]
      refine ⟨found, t' :: children', rfl, .cons hkept hkept', ?_, ?_⟩
      · intro hfound
        exact List.forall_mem_cons.mpr ⟨hsound rfl, hsound' hfound⟩
      · intro hD hall
        exact hcomplete' hD (List.forall_mem_cons.mp hall).2

theorem probeAny_tells (h : List.Forall₂ (fun ast t => Keeps c levels ast t D) asts children)
    (hintime : ∀ p ∈ probedAny doc asts children, p.InTime c) :
    ∃ found children', probeAny doc children = some (found, children') ∧
      List.Forall₂ (fun ast t => Keeps c levels ast t fun x => D x ∧ doc ≤ x) asts children' ∧
      (found = true → ∃ ast ∈ asts, Satisfies c ast doc) ∧
      (D doc → (∃ ast ∈ asts, Satisfies c ast doc) → found = true) := by
  induction h with
  | nil => exact ⟨false, [], rfl, .nil, by simp, by simp⟩
  | @cons ast t asts children hkeeps hrest ih =>
    rw [probedAny, List.forall_mem_append] at hintime
    obtain ⟨found, t', hrun, hkept, hsound, hcomplete⟩ := hprobe ast t D hkeeps hintime.1
    rw [hrun] at hintime
    rw [probeAny, hrun]
    cases found with
    | true =>
      refine ⟨true, t' :: children, rfl, .cons hkept ?_, ?_, fun _ _ => rfl⟩
      · exact forall₂_mono hrest fun ast _ t hk => hk.mono fun x hx _ => hx.1
      · intro _
        exact ⟨ast, List.mem_cons_self, hsound rfl⟩
    | false =>
      obtain ⟨found, children', hrun', hkept', hsound', hcomplete'⟩ := ih hintime.2
      dsimp only
      rw [hrun', Option.map_some]
      refine ⟨found, t' :: children', rfl, .cons hkept hkept', ?_, ?_⟩
      · intro hfound
        obtain ⟨ast', hmem, hsat⟩ := hsound' hfound
        exact ⟨ast', List.mem_cons_of_mem _ hmem, hsat⟩
      · rintro hD ⟨ast', hmem, hsat⟩
        rcases List.mem_cons.mp hmem with rfl | hmem
        · cases hcomplete hD hsat
        · exact hcomplete' hD ⟨ast', hmem, hsat⟩

theorem probeOthers_tells
    (h : Driven (fun ast t => Keeps c levels ast t D) find i asts children)
    (hintime : ∀ p ∈ probedOthers doc i asts children, p.InTime c) :
    ∃ found children', probeOthers doc i children = some (found, children') ∧
      Driven (fun ast t => Keeps c levels ast t fun x => D x ∧ doc ≤ x) find i asts children' ∧
      (found = true → (∀ ast, asts[i]? = some ast → Satisfies c ast doc) →
        ∀ ast ∈ asts, Satisfies c ast doc) ∧
      (D doc → (∀ ast ∈ asts, Satisfies c ast doc) → found = true) := by
  induction h with
  | @here ast t asts children hfind hkeeps =>
    rw [probedOthers] at hintime
    obtain ⟨found, children', hrun, hkept, hsound, hcomplete⟩ :=
      probeAll_tells hprobe hkeeps hintime
    rw [probeOthers, hrun, Option.map_some]
    refine ⟨found, t :: children', rfl, .here hfind hkept, ?_, ?_⟩
    · intro hfound hdriver
      exact List.forall_mem_cons.mpr ⟨hdriver ast rfl, hsound hfound⟩
    · intro hD hall
      exact hcomplete hD (List.forall_mem_cons.mp hall).2
  | @later i ast t asts children hkeeps hrest ih =>
    rw [probedOthers, List.forall_mem_append] at hintime
    obtain ⟨found, t', hrun, hkept, hsound, hcomplete⟩ := hprobe ast t D hkeeps hintime.1
    rw [hrun] at hintime
    rw [probeOthers, hrun]
    cases found with
    | false =>
      refine ⟨false, t' :: children, rfl, .later hkept ?_, by simp, ?_⟩
      · exact hrest.mono (fun ast _ t hk => hk.mono fun x hx _ => hx.1) fun _ _ _ hf => hf
      · intro hD hall
        exact hcomplete hD (hall ast List.mem_cons_self)
    | true =>
      obtain ⟨found, children', hrun', hkept', hsound', hcomplete'⟩ := ih hintime.2
      dsimp only
      rw [hrun', Option.map_some]
      refine ⟨found, t' :: children', rfl, .later hkept hkept', ?_, ?_⟩
      · intro hfound hdriver
        exact List.forall_mem_cons.mpr ⟨hsound rfl, hsound' hfound hdriver⟩
      · intro hD hall
        exact hcomplete' hD (List.forall_mem_cons.mp hall).2

end Probe

/-- A probe in time tells whether the doc satisfies the tree, if it is one that the node keeps. -/
theorem probe_tells {doc : Nat} (hdoc : 1 ≤ doc) (levels : Nat) (ast : ASTNode) (t : QueryISR)
    (D : Nat → Prop) (h : Keeps c levels ast t D)
    (hintime : ∀ p ∈ probed doc ast t, p.InTime c) :
    Tells c levels ast D doc (probe doc t) := by
  induction levels generalizing ast t D with
  | zero => cases h
  | succ levels ih =>
    cases ast with
    | term term =>
      obtain ⟨lowest, last, hleaf, hlowest⟩ := h
      rw [probed] at hintime
      obtain ⟨found, node, last', hrun, hleaf', hsound, hcomplete⟩ :=
        leaf_probe hleaf hdoc
      have hintime := hintime _ List.mem_cons_self
      refine ⟨found, node, hrun, ⟨_, last', hleaf', ?_⟩, hsound.mpr hintime, ?_⟩
      · intro x hx hsat hin
        exact Nat.max_le.mpr ⟨hlowest x hx.1 hsat hin, hx.2⟩
      · intro hD hsat
        exact hcomplete hsat fun hin => hlowest doc hD hsat hin
    | and asts =>
      cases t with
      | and children driver =>
        rw [probed] at hintime
        obtain ⟨found, children', hrun, hkept, hsound, hcomplete⟩ :=
          probeAll_tells (fun ast t D h hp => ih ast t D h hp) h hintime
        refine ⟨found, .and children' driver, by rw [probe, hrun, Option.map_some], ?_, ?_, ?_⟩
        · refine forall₂_mono hkept fun ast _ t hk => hk.mono ?_
          exact fun x hx _ => ⟨⟨hx.1.1, hx.2⟩, hx.1.2⟩
        · intro hfound
          exact satisfies_and.mpr (hsound hfound)
        · intro hD hsat
          exact hcomplete ⟨hD, hsat⟩ (satisfies_and.mp hsat)
      | _ => cases h
    | or asts =>
      cases t with
      | or children docs pending =>
        rw [probed] at hintime
        obtain ⟨found, children', hrun, hkept, hsound, hcomplete⟩ :=
          probeAny_tells (fun ast t D h hp => ih ast t D h hp) h hintime
        refine ⟨found, .or children' docs pending, by rw [probe, hrun, Option.map_some], hkept, ?_, ?_⟩
        · intro hfound
          exact satisfies_or.mpr (hsound hfound)
        · intro hD hsat
          exact hcomplete hD (satisfies_or.mp hsat)
      | _ => cases h

/-! ## Next docs -/

theorem foldl_lesserDoc_ne {docs : List Nat} {d : Nat} (m : Nat) (hmem : d ∈ docs) (hd : d ≠ 0) :
    docs.foldl lesserDoc m ≠ 0 := by
  induction docs generalizing m with
  | nil => cases hmem
  | cons d' docs ih =>
    rw [List.foldl_cons]
    rcases List.mem_cons.mp hmem with rfl | hmem
    · exact ((foldl_lesserDoc docs _).2.1 ((lesserDoc_spec m d).2.2 hd).1).1
    · exact ih _ hmem

theorem minDoc_zero {docs : List Nat} {d : Nat} (h : minDoc docs = 0) (hmem : d ∈ docs) : d = 0 := by
  by_contra hd
  exact foldl_lesserDoc_ne 0 hmem hd h

/-- What a call of `next_doc` gives after `last`. -/
def NextDoc (c : Chunk) (levels : Nat) (last : Nat) (ast : ASTNode)
    (result : Option (Nat × QueryISR)) : Prop :=
  ∃ doc t, result = some (doc, t) ∧
    Next c (Finds c levels) (Keeps c levels) (last + 1) ast t doc

section Step

variable {levels last i : Nat} {asts : List ASTNode} {children : List QueryISR} {docs : List Nat}
  (hnext : ∀ ast t last, Finds c levels ast t last → last ≤ DOCS_PER_INDEX_CHUNK →
    (∀ p ∈ nextProbes levels ast t, p.InTime c) → NextDoc c levels last ast (nextDoc levels t))
include hnext

/-- The candidates of the driver that the other children do not have are no docs of the AND. -/
theorem andLoop_next (turns : Nat)
    (h : Finds c (levels + 1) (.and asts) (.and children (some i)) last)
    (hlast : last ≤ DOCS_PER_INDEX_CHUNK) (hturns : DOCS_PER_INDEX_CHUNK - last < turns)
    (hintime : ∀ p ∈ andProbes (nextDoc levels) (nextProbes levels) i asts turns children,
      p.InTime c) :
    ∃ doc children', andLoop (nextDoc levels) i turns children = some (doc, children') ∧
      Next c (Finds c (levels + 1)) (Keeps c (levels + 1)) (last + 1) (.and asts)
        (.and children' (some i)) doc := by
  induction turns generalizing last children with
  | zero => omega
  | succ turns ih =>
    obtain ⟨ast, t, hast, hchild, hfinds⟩ := Driven.driver h
    have hmem : ast ∈ asts := List.mem_of_getElem? hast
    rw [andProbes, hast, hchild] at hintime
    dsimp only at hintime
    rw [List.forall_mem_append] at hintime
    obtain ⟨candidate, t', hrun, hgiven⟩ := hnext ast t last hfinds hlast hintime.1
    rw [hrun] at hintime
    dsimp only at hintime
    rw [andLoop, hchild, Option.bind_some, hrun]
    dsimp only
    rcases hgiven with ⟨rfl, hnone, hkept⟩ | ⟨hlt, hbound, hfound, hsat, hbefore⟩
    · rw [if_pos rfl]
      refine ⟨0, _, rfl, Or.inl ⟨rfl, ?_, ?_⟩⟩
      · exact fun x hx hall => hnone x hx (satisfies_and.mp hall ast hmem)
      · have hset : Driven _ (fun ast t => Keeps c levels ast t fun _ => False) i asts
            (children.set i t') := Driven.set h hast hkept
        refine Driven.all (hset.mono ?_ ?_) fun _ _ _ hk => hk
        · exact fun ast _ t hk => hk.mono fun x hx _ => hx.1.elim
        · exact fun ast _ t hk => hk.mono fun x hx _ => hx.1.elim
    · have hpos : candidate ≠ 0 := by omega
      have hone : 1 ≤ candidate := by omega
      rw [if_neg hpos]
      rw [if_neg hpos, List.forall_mem_append] at hintime
      have hset : Driven _ (fun ast t => Finds c levels ast t candidate) i asts
          (children.set i t') := Driven.set h hast hfound
      obtain ⟨found, children', hprobe, hdriven, hsound, hcomplete⟩ :=
        probeOthers_tells (probe_tells hone levels) hset hintime.2.1
      have hfinds' : Finds c (levels + 1) (.and asts) (.and children' (some i)) candidate := by
        refine hdriven.mono ?_ fun _ _ _ hf => hf
        exact fun ast _ t hk => hk.mono fun x hx _ => ⟨⟨by omega, hx.2⟩, by omega⟩
      rw [hprobe]
      rw [hprobe] at hintime
      cases found with
      | true =>
        refine ⟨candidate, children', rfl, Or.inr ⟨hlt, hbound, hfinds', ?_, ?_⟩⟩
        · refine satisfies_and.mpr (hsound rfl fun ast' hast' => ?_)
          obtain rfl : ast = ast' := Option.some_inj.mp (hast.symm.trans hast')
          exact hsat
        · exact fun x hx hxdoc hall => hbefore x hx hxdoc (satisfies_and.mp hall ast hmem)
      | false =>
        obtain ⟨doc, children'', hrest, hgiven⟩ := ih hfinds' hbound (by omega) hintime.2.2
        refine ⟨doc, children'', hrest, hgiven.skip (by omega) fun x hx hxdoc hall => ?_⟩
        rcases Nat.lt_or_ge x candidate with hearlier | hge
        · exact hbefore x hx hearlier (satisfies_and.mp hall ast hmem)
        · obtain rfl : x = candidate := by omega
          cases hcomplete ⟨by omega, hall⟩ (satisfies_and.mp hall)

/-- The children that stood in the last doc go on. -/
theorem advanceAt_next (hlast : last ≤ DOCS_PER_INDEX_CHUNK) (hpos : last ≠ 0)
    (h : Forall₃ (Next c (Finds c levels) (Keeps c levels) last) asts children docs)
    (hintime : ∀ p ∈ advanceProbes (nextProbes levels) last asts children docs, p.InTime c) :
    ∃ children' docs', advanceAt (nextDoc levels) last children docs = some (children', docs') ∧
      Forall₃ (Next c (Finds c levels) (Keeps c levels) (last + 1)) asts children' docs' := by
  induction h with
  | nil => exact ⟨[], [], rfl, .nil⟩
  | @cons ast t doc asts children docs hgiven _ ih =>
    rw [advanceProbes, List.forall_mem_append] at hintime
    obtain ⟨children', docs', hrest, hlater⟩ := ih hintime.2
    rw [advanceAt, hrest]
    by_cases heq : doc = last
    · subst heq
      rw [if_pos rfl] at hintime
      rcases hgiven with ⟨hzero, _⟩ | ⟨_, _, hfinds, _⟩
      · exact absurd hzero hpos
      · obtain ⟨doc', t', hrun, hgiven'⟩ := hnext ast t doc hfinds hlast hintime.1
        rw [if_pos rfl, hrun]
        exact ⟨_, _, rfl, .cons hgiven' hlater⟩
    · rw [if_neg heq]
      refine ⟨_, _, rfl, .cons (hgiven.later (by omega) (Nat.le_succ last) fun hne => ?_) hlater⟩
      rcases hgiven with ⟨hzero, _⟩ | ⟨hle, _⟩
      · exact absurd hzero hne
      · omega

end Step

/-- The least doc of the children is the next one of an OR. -/
theorem or_next {levels last : Nat} {asts : List ASTNode} {children : List QueryISR}
    {docs : List Nat}
    (h : Forall₃ (Next c (Finds c levels) (Keeps c levels) (last + 1)) asts children docs) :
    Next c (Finds c (levels + 1)) (Keeps c (levels + 1)) (last + 1) (.or asts)
      (.or children docs (minDoc docs)) (minDoc docs) := by
  by_cases hzero : minDoc docs = 0
  · refine Or.inl ⟨hzero, ?_, ?_⟩
    · intro x hx hsat
      obtain ⟨ast, hmem, hsat⟩ := satisfies_or.mp hsat
      obtain ⟨t, doc, hdoc, hgiven⟩ := h.first hmem
      rcases hgiven with ⟨_, hnone, _⟩ | ⟨hle, _⟩
      · exact hnone x hx hsat
      · have := minDoc_zero hzero hdoc
        omega
    · refine h.pairs fun ast _ t doc hdoc hgiven => ?_
      rcases hgiven with ⟨_, _, hkept⟩ | ⟨hle, _⟩
      · exact hkept
      · have := minDoc_zero hzero hdoc
        omega
  · obtain ⟨ast, hmem, t, hgiven⟩ := h.third (minDoc_mem hzero)
    rcases hgiven with ⟨habsurd, _⟩ | ⟨hle, hbound, _, hsat, _⟩
    · exact absurd habsurd hzero
    · refine Or.inr ⟨hle, hbound, ⟨rfl, ?_⟩, satisfies_or.mpr ⟨ast, hmem, hsat⟩, ?_⟩
      · rw [show max 1 (minDoc docs) = minDoc docs by omega]
        refine h.mono fun ast _ t doc hdoc hgiven => ?_
        exact hgiven.later (by omega) hle fun hne => minDoc_le hdoc hne
      · intro x hx hxdoc hsat'
        obtain ⟨ast', hmem', hsat'⟩ := satisfies_or.mp hsat'
        obtain ⟨t', doc, hdoc, hgiven⟩ := h.first hmem'
        rcases hgiven with ⟨_, hnone, _⟩ | ⟨hle', _, _, _, hbefore⟩
        · exact hnone x hx hsat'
        · exact hbefore x hx (hxdoc.trans_le (minDoc_le hdoc (by omega))) hsat'

/-- The step lemma: a call in time gives the first doc after the last one that satisfies the
tree. -/
theorem nextDoc_next (levels : Nat) (ast : ASTNode) (t : QueryISR) (last : Nat)
    (h : Finds c levels ast t last) (hlast : last ≤ DOCS_PER_INDEX_CHUNK)
    (hintime : ∀ p ∈ nextProbes levels ast t, p.InTime c) :
    NextDoc c levels last ast (nextDoc levels t) := by
  induction levels generalizing ast t last with
  | zero => cases h
  | succ levels ih =>
    cases ast with
    | term term =>
      obtain ⟨hplain, hleaf⟩ := h
      have hsat (x : Nat) : Satisfies c (.term term) x ↔ Occurs c x term.isPhrase term.val := by
        rw [satisfies_term, hplain]
        exact Iff.rfl
      obtain ⟨doc, node, last', hrun, hleaf', hdoc⟩ := leaf_nextDoc levels hleaf le_rfl
      refine ⟨doc, node, hrun, ?_⟩
      rcases hdoc with ⟨hzero, hnone⟩ | ⟨hlt, hbound, rfl, hin, hbefore⟩
      · refine Or.inl ⟨hzero, fun x hx => mt (hsat x).mp (hnone x hx), ?_⟩
        exact ⟨_, last', hleaf', fun x hx => hx.elim⟩
      · refine Or.inr ⟨hlt, hbound, ⟨hplain, hleaf'.mono (by omega)⟩, (hsat _).mpr hin, ?_⟩
        exact fun x hx hxdoc => mt (hsat x).mp (hbefore x hx hxdoc)
    | and asts =>
      cases t with
      | and children driver =>
        cases driver with
        | none => cases h
        | some i =>
          rw [nextProbes] at hintime
          obtain ⟨doc, children', hrun, hgiven⟩ :=
            andLoop_next (fun ast t last h hl hp => ih ast t last h hl hp) _ h hlast (by omega) hintime
          refine ⟨doc, .and children' (some i), ?_, hgiven⟩
          rw [nextDoc, hrun, Option.map_some]
      | _ => cases h
    | or asts =>
      cases t with
      | or children docs pending =>
        obtain ⟨rfl, hgiven⟩ := h
        rw [nextProbes] at hintime
        rw [nextDoc]
        by_cases hzero : pending = 0
        · subst hzero
          exact ⟨_, _, rfl, or_next hgiven⟩
        · rw [if_pos hzero] at hintime ⊢
          rw [show max 1 pending = pending by omega] at hgiven
          obtain ⟨children', docs', hrun, hgiven'⟩ :=
            advanceAt_next (fun ast t last h hl hp => ih ast t last h hl hp) hlast hzero hgiven
              hintime
          rw [hrun]
          exact ⟨_, _, rfl, or_next hgiven'⟩
      | _ => cases h

/-! ## The tree when it is new -/

/-- A driver is driveable, and an AND without one has no driveable child. -/
theorem foldl_pickDriver_driveable (children : List (QueryISR × Nat)) (best : Option Nat × Nat) :
    ((children.foldl pickDriver best).1 = none →
        best.1 = none ∧ ∀ child ∈ children, isDriveable child.1 = false) ∧
      ∀ i, (children.foldl pickDriver best).1 = some i →
        best.1 = some i ∨ ∃ child ∈ children, child.2 = i ∧ isDriveable child.1 = true := by
  induction children generalizing best with
  | nil => exact ⟨fun h => ⟨h, by simp⟩, fun i h => Or.inl h⟩
  | cons child children ih =>
    obtain ⟨hnone, hsome⟩ := ih (pickDriver best child)
    rw [List.foldl_cons]
    constructor
    · intro h
      obtain ⟨hpicked, hrest⟩ := hnone h
      unfold pickDriver at hpicked
      dsimp only at hpicked
      split at hpicked
      · cases hpicked
      · rename_i hnot
        refine ⟨hpicked, List.forall_mem_cons.mpr ⟨?_, hrest⟩⟩
        by_contra hdriveable
        exact hnot ⟨Bool.not_eq_false _ ▸ hdriveable, Or.inl hpicked⟩
    · intro i h
      rcases hsome i h with hpicked | ⟨child', hmem, hchild⟩
      · unfold pickDriver at hpicked
        dsimp only at hpicked
        split at hpicked
        · rename_i hpick
          exact Or.inr ⟨child, List.mem_cons_self, Option.some_inj.mp hpicked, hpick.1⟩
        · exact Or.inl hpicked
      · exact Or.inr ⟨child', List.mem_cons_of_mem _ hmem, hchild⟩

theorem driverOf_some {children : List QueryISR} {i : Nat} (h : driverOf children = some i) :
    ∃ child, children[i]? = some child ∧ isDriveable child = true := by
  rcases (foldl_pickDriver_driveable children.zipIdx (none, UINT32_MAX)).2 i h with
    hnone | ⟨⟨child, j⟩, hmem, rfl, hdriveable⟩
  · cases hnone
  · exact ⟨child, List.mem_zipIdx_iff_getElem?.mp hmem, hdriveable⟩

theorem anyDriveable_of_mem {children : List QueryISR} {child : QueryISR} (hmem : child ∈ children)
    (h : isDriveable child = true) : anyDriveable children = true := by
  induction children with
  | nil => cases hmem
  | cons child' children ih =>
    rw [anyDriveable, Bool.or_eq_true]
    rcases List.mem_cons.mp hmem with rfl | hmem
    · exact Or.inl h
    · exact Or.inr (ih hmem)

theorem driverOf_none {children : List QueryISR} (h : driverOf children = none) :
    anyDriveable children = false := by
  have hall := ((foldl_pickDriver_driveable children.zipIdx (none, UINT32_MAX)).1 h).2
  have hnone : ∀ child ∈ children, isDriveable child = false := by
    intro child hmem
    obtain ⟨i, hi⟩ := List.mem_iff_getElem?.mp hmem
    exact hall (child, i) (List.mem_zipIdx_iff_getElem?.mpr hi)
  clear h hall
  induction children with
  | nil => rfl
  | cons child children ih =>
    obtain ⟨hchild, hrest⟩ := List.forall_mem_cons.mp hnone
    rw [anyDriveable, hchild, ih hrest, Bool.false_or]

/-- A new node: it may be driven if it is driveable, and else it is asked for one doc at most
before it is probed. -/
structure Built (c : Chunk) (levels : Nat) (ast : ASTNode) (t : QueryISR) : Prop where
  keeps : Keeps c levels ast t fun doc => 1 ≤ doc
  finds : driveable ast = true → Finds c levels ast t 0
  idle : driveable ast = false → ∃ doc t', nextDoc levels t = some (doc, t') ∧
    Keeps c levels ast t' fun doc => 1 ≤ doc

/-- A child of a new OR. -/
structure Primed (c : Chunk) (levels : Nat) (ast : ASTNode) (t : QueryISR) (doc : Nat) : Prop where
  keeps : Keeps c levels ast t fun doc => 1 ≤ doc
  next : driveable ast = true → Next c (Finds c levels) (Keeps c levels) 1 ast t doc

theorem Built.prime {levels : Nat} {ast : ASTNode} {t : QueryISR} (h : Built c levels ast t)
    (hintime : ∀ p ∈ nextProbes levels ast t, p.InTime c) :
    ∃ doc t', nextDoc levels t = some (doc, t') ∧ Primed c levels ast t' doc := by
  cases hdriveable : driveable ast with
  | true =>
    obtain ⟨doc, t', hrun, hnext⟩ :=
      nextDoc_next levels ast t 0 (h.finds hdriveable) (Nat.zero_le _) hintime
    exact ⟨doc, t', hrun, hnext.keeps Finds.keeps le_rfl, fun _ => hnext⟩
  | false =>
    obtain ⟨doc, t', hrun, hkeeps⟩ := h.idle hdriveable
    exact ⟨doc, t', hrun, hkeeps, fun htrue => by rw [hdriveable] at htrue; cases htrue⟩

theorem primeAll_primed {levels : Nat} {asts : List ASTNode} {children : List QueryISR}
    (h : List.Forall₂ (Built c levels) asts children)
    (hintime : ∀ p ∈ primeProbes (nextProbes levels) asts children, p.InTime c) :
    ∃ children' docs, primeAll (nextDoc levels) children = some (children', docs) ∧
      Forall₃ (Primed c levels) asts children' docs := by
  induction h with
  | nil => exact ⟨[], [], rfl, .nil⟩
  | @cons ast t asts children hbuilt _ ih =>
    rw [primeProbes, List.forall_mem_append] at hintime
    obtain ⟨doc, t', hrun, hprimed⟩ := hbuilt.prime hintime.1
    obtain ⟨children', docs, hrest, hall⟩ := ih hintime.2
    rw [primeAll, hrun, hrest]
    exact ⟨_, _, rfl, .cons hprimed hall⟩

/-! ### The tree of a query -/

theorem leafStands_open (c : Chunk) (t : TermData) :
    ∃ node, buildIsrTree c.index (.term t) = some node ∧ LeafStands c t 1 0 node := by
  rw [buildIsrTree]
  cases hphrase : t.isPhrase with
  | true =>
    rw [if_pos rfl]
    refine ⟨_, rfl, _, .phrase _ hphrase, ?_⟩
    have hleaf : leafWords t = phraseWords t.val := by rw [leafWords, hphrase, if_pos rfl]
    rw [hleaf]
    cases phraseWords t.val with
    | nil => rfl
    | cons word others => exact ⟨_, _, _, rfl, stand_open c word others, rfl⟩
  | false =>
    rw [if_neg Bool.false_ne_true]
    refine ⟨_, rfl, _, .term _ hphrase, ?_⟩
    have hleaf : leafWords t = [t.val] := by rw [leafWords, hphrase, if_neg Bool.false_ne_true]
    rw [hleaf]
    exact ⟨_, _, _, rfl, stand_open c t.val [], rfl⟩

theorem built_term (levels : Nat) {t : TermData} {node : QueryISR}
    (h : LeafStands c t 1 0 node) : Built c (levels + 1) (.term t) node where
  keeps := ⟨1, 0, h, fun doc hdoc _ _ => hdoc⟩
  finds hplain := ⟨by simpa [driveable] using hplain, h⟩
  idle _ := by
    obtain ⟨doc, node', last', hrun, hleaf, _⟩ := leaf_nextDoc levels h le_rfl
    exact ⟨doc, node', hrun, _, last', hleaf, fun x hx _ _ => hx⟩

theorem built_and {levels : Nat} {asts : List ASTNode} {children : List QueryISR}
    (h : List.Forall₂ (Built c levels) asts children) :
    Built c (levels + 1) (.and asts) (.and children (driverOf children)) := by
  have hkeeps : List.Forall₂ (fun ast t => Keeps c levels ast t fun doc =>
      1 ≤ doc ∧ Satisfies c (.and asts) doc) asts children :=
    forall₂_mono h fun ast _ t hbuilt => hbuilt.keeps.mono fun x hx _ => hx.1
  have hsame : anyDriveable children = someDriveable asts :=
    someDriveable_eq (forall₂_mono h fun ast _ t hbuilt => hbuilt.keeps.isDriveable)
  refine ⟨hkeeps, fun hdriveable => ?_, fun hidle => ?_⟩
  · cases hdriver : driverOf children with
    | none =>
      rw [driveable, ← hsame, driverOf_none hdriver] at hdriveable
      cases hdriveable
    | some i =>
      obtain ⟨child, hchild, hdriven⟩ := driverOf_some hdriver
      -- the driver is new as well, so it finds its first doc
      have hboth : List.Forall₂ (fun ast t => Built c levels ast t ∧ Keeps c levels ast t fun doc =>
          1 ≤ doc ∧ Satisfies c (.and asts) doc) asts children :=
        forall₂_mono h fun ast _ t hbuilt => ⟨hbuilt, hbuilt.keeps.mono fun x hx _ => hx.1⟩
      have hfinds : ∀ ast ∈ asts, Built c levels ast child ∧ Keeps c levels ast child (fun doc =>
          1 ≤ doc ∧ Satisfies c (.and asts) doc) → Finds c levels ast child 0 :=
        fun ast _ hb => hb.1.finds (hb.1.keeps.isDriveable ▸ hdriven)
      exact (driven_of_all hboth hchild hfinds).mono (fun ast _ t hb => hb.2) fun ast _ t hf => hf
  · have hnone : driverOf children = none := by
      cases hdriver : driverOf children with
      | none => rfl
      | some i =>
        obtain ⟨child, hchild, hdriven⟩ := driverOf_some hdriver
        have hany := anyDriveable_of_mem (List.mem_of_getElem? hchild) hdriven
        rw [driveable, ← hsame, hany] at hidle
        cases hidle
    rw [hnone]
    exact ⟨0, _, rfl, hkeeps⟩

theorem built_or {levels : Nat} {asts : List ASTNode} {children : List QueryISR} {docs : List Nat}
    (h : Forall₃ (Primed c levels) asts children docs) :
    Built c (levels + 1) (.or asts) (.or children docs 0) := by
  have hkeeps : List.Forall₂ (fun ast t => Keeps c levels ast t fun doc => 1 ≤ doc) asts children :=
    h.pairs fun ast _ t doc _ hprimed => hprimed.keeps
  refine ⟨hkeeps, fun hdriveable => ?_, fun _ => ⟨_, _, rfl, hkeeps⟩⟩
  rw [driveable, Bool.and_eq_true] at hdriveable
  exact ⟨rfl, h.mono fun ast hmem t doc _ hprimed =>
    hprimed.next (driveable_of_each hdriveable.2 hmem)⟩

theorem Primed.deepen {levels levels' doc : Nat} {ast : ASTNode} {t : QueryISR}
    (h : Primed c levels ast t doc) (hle : levels ≤ levels') : Primed c levels' ast t doc :=
  ⟨h.keeps.deepen hle, fun hdriveable => (h.next hdriveable).imp (fun hf => hf.deepen hle)
    fun _ hk => hk.deepen hle⟩

mutual

theorem buildIsrTree_built (c : Chunk) : ∀ ast levels, depth ast ≤ levels →
    (∀ p ∈ buildProbes c.index ast, p.InTime c) →
    ∃ t, buildIsrTree c.index ast = some t ∧ Built c levels ast t
  | .term t, levels, h, _ => by
    obtain ⟨levels, rfl⟩ : ∃ n, levels = n + 1 := ⟨levels - 1, by rw [depth] at h; omega⟩
    obtain ⟨node, hbuild, hleaf⟩ := leafStands_open c t
    exact ⟨node, hbuild, built_term levels hleaf⟩
  | .and asts, levels, h, hintime => by
    obtain ⟨levels, rfl⟩ : ∃ n, levels = n + 1 := ⟨levels - 1, by rw [depth] at h; omega⟩
    rw [buildProbes] at hintime
    obtain ⟨children, hbuild, hall⟩ :=
      buildAll_built c asts levels (Nat.le_of_succ_le_succ h) hintime
    refine ⟨_, ?_, built_and hall⟩
    rw [buildIsrTree, hbuild, Option.map_some]
  | .or asts, levels, h, hintime => by
    obtain ⟨levels, rfl⟩ : ∃ n, levels = n + 1 := ⟨levels - 1, by rw [depth] at h; omega⟩
    rw [buildProbes, List.forall_mem_append] at hintime
    obtain ⟨children, hbuild, hall⟩ := buildAll_built c asts (depthAll asts) le_rfl hintime.1
    rw [hbuild] at hintime
    obtain ⟨children', docs, hprime, hprimed⟩ := primeAll_primed hall hintime.2
    refine ⟨.or children' docs 0, ?_, built_or (hprimed.mono fun ast _ t doc _ hp => ?_)⟩
    · rw [buildIsrTree, hbuild, Option.bind_some, hprime, Option.map_some]
    · exact hp.deepen (Nat.le_of_succ_le_succ h)

theorem buildAll_built (c : Chunk) : ∀ asts levels, depthAll asts ≤ levels →
    (∀ p ∈ buildAllProbes c.index asts, p.InTime c) →
    ∃ children, buildAll c.index asts = some children ∧
      List.Forall₂ (Built c levels) asts children
  | [], _, _, _ => ⟨[], rfl, .nil⟩
  | ast :: asts, levels, h, hintime => by
    obtain ⟨hast, hasts⟩ := max_le_iff.mp h
    rw [buildAllProbes, List.forall_mem_append] at hintime
    obtain ⟨t, hbuild, hbuilt⟩ := buildIsrTree_built c ast levels hast hintime.1
    obtain ⟨children, hbuildAll, hall⟩ := buildAll_built c asts levels hasts hintime.2
    exact ⟨t :: children, by rw [buildAll, hbuild, hbuildAll], .cons hbuilt hall⟩

end

/-! ## Whole runs -/

/-- The run lemma: the calls give the docs after the last one that satisfy the tree. -/
theorem nextDocs_give (levels calls : Nat) {ast : ASTNode} {root : QueryISR} {last : Nat}
    (h : Finds c levels ast root last) (hlast : last ≤ DOCS_PER_INDEX_CHUNK)
    (hcalls : DOCS_PER_INDEX_CHUNK - last < calls)
    (hintime : ∀ p ∈ runProbes levels ast calls root, p.InTime c) :
    ∃ docs, query_isr.nextDocs levels calls root = some docs ∧ docs.Pairwise (· < ·) ∧
      ∀ x, x ∈ docs ↔ last < x ∧ Satisfies c ast x := by
  induction calls generalizing root last with
  | zero => omega
  | succ calls ih =>
    rw [runProbes, List.forall_mem_append] at hintime
    obtain ⟨doc, root', hrun, hgiven⟩ := nextDoc_next levels ast root last h hlast hintime.1
    rw [hrun] at hintime
    rw [query_isr.nextDocs, hrun]
    dsimp only at hintime ⊢
    rcases hgiven with ⟨rfl, hnone, _⟩ | ⟨hlt, hbound, hfinds, hsat, hbefore⟩
    · rw [if_pos rfl]
      refine ⟨[], rfl, .nil, fun x => ?_⟩
      simp only [List.not_mem_nil, false_iff, not_and]
      exact fun hx => hnone x hx
    · have hpos : doc ≠ 0 := by omega
      rw [if_neg hpos] at hintime ⊢
      obtain ⟨docs, hrest, hincreasing, hmem⟩ := ih hfinds hbound (by omega) hintime.2
      refine ⟨doc :: docs, by rw [hrest, Option.map_some], ?_, fun x => ?_⟩
      · exact List.pairwise_cons.mpr ⟨fun x hx => ((hmem x).mp hx).1, hincreasing⟩
      · rw [List.mem_cons, hmem x]
        constructor
        · rintro (rfl | ⟨hx, hsatx⟩)
          · exact ⟨hlt, hsat⟩
          · exact ⟨by omega, hsatx⟩
        · rintro ⟨hx, hsatx⟩
          rcases Nat.lt_trichotomy x doc with hearlier | rfl | hlater
          · exact absurd hsatx (hbefore x hx hearlier)
          · exact Or.inl rfl
          · exact Or.inr ⟨hlater, hsatx⟩

/-- Where no probe of a negated leaf comes too late, the docs that a driveable tree gives are those
that satisfy the query. -/
theorem gives_the_satisfying_docs (c : Chunk) (ast : ASTNode)
    (hdriveable : ∀ root ∈ buildIsrTree c.index ast, isDriveable root = true)
    (hintime : ∀ p ∈ queryProbes c.index ast, p.InTime c) :
    ∃ docs, treeDocs c.index ast = some docs ∧ docs.Pairwise (· < ·) ∧
      ∀ doc, doc ∈ docs ↔ 1 ≤ doc ∧ Satisfies c ast doc := by
  rw [queryProbes, List.forall_mem_append] at hintime
  obtain ⟨root, hroot, hbuilt⟩ := buildIsrTree_built c ast (depth ast) le_rfl hintime.1
  have hdrives : isDriveable root = true := hdriveable root hroot
  have hfinds : Finds c (depth ast) ast root 0 :=
    hbuilt.finds (hbuilt.keeps.isDriveable.symm.trans hdrives)
  have hrun := hintime.2
  rw [hroot] at hrun
  obtain ⟨docs, hdocs, hincreasing, hmem⟩ := nextDocs_give (depth ast) (DOCS_PER_INDEX_CHUNK + 1)
    hfinds (Nat.zero_le _) (Nat.lt_succ_of_le (Nat.sub_le _ _)) hrun
  refine ⟨docs, ?_, hincreasing, hmem⟩
  unfold treeDocs
  simp only [hroot, hdrives, Bool.not_true, Bool.false_eq_true, if_false]
  exact hdocs

/-! ## A probe that comes too late -/

/-- The lists of the words `a`, `b`, `c` and `f`. -/
def fourLists : List ((_ : Bytes) × Postings) :=
  [⟨[97], [⟨5, 1⟩], 1⟩, ⟨[98], [⟨10, 1⟩], 1⟩, ⟨[99], [⟨5, 2⟩, ⟨12, 1⟩], 2⟩, ⟨[102], [⟨5, 3⟩], 1⟩]

theorem fourLists_valid : ∀ x ∈ fourLists,
    sort.Indexable x.1 ∧ x.2.Valid ∧ x.2.nDocs ≤ DOCS_PER_INDEX_CHUNK := by
  simp only [fourLists, List.forall_mem_cons]
  refine ⟨?_, ?_, ?_, ?_, by simp⟩ <;>
    exact ⟨⟨by decide, by decide +kernel, by decide⟩, ⟨by decide, by decide, by decide, by decide⟩,
      by decide⟩

def fourWords : chunk_layout.ChunkState where
  urls := []
  index := ⟨fourLists, show (fourLists.map Sigma.fst).Nodup by decide⟩
  urlsClean := by simp
  wordsIndexable word hword := by
    obtain ⟨x, hx, rfl⟩ := List.mem_map.mp (AList.mem_keys.mp hword)
    exact (fourLists_valid x hx).1
  postingsValid word _ e he := (fourLists_valid _ (AList.mem_lookup_iff.mp he)).2.1
  docsCounted word _ e he := (fourLists_valid _ (AList.mem_lookup_iff.mp he)).2.2
  urlsFit := by decide
  wordsFit := by decide
  fits := by decide +kernel

theorem fourWords_readsBack : ReadsBack fourWords where
  words := dictionary.sameSigns_of_ascii (by decide +kernel)
  deltas := by decide +kernel

def fourWordsChunk : Chunk :=
  chunkOf fourWords [[97], [98], [99], [102]] (by decide) fourWords_readsBack (by decide)

/-- `(a|c) -b` -/
def withoutB : ASTNode :=
  .and [.or [.term ⟨[97], false, false, 0⟩, .term ⟨[99], false, false, 1⟩],
    .term ⟨[98], true, false, 2⟩]

theorem withoutB_gives_its_docs : treeDocs fourWordsChunk.index withoutB = some [5, 12] ∧
    ∀ doc, doc ∈ [5, 12] ↔ 1 ≤ doc ∧ Satisfies fourWordsChunk withoutB doc := by
  have hrun : treeDocs fourWordsChunk.index withoutB = some [5, 12] := by decide +kernel
  obtain ⟨docs, hdocs, _, hmem⟩ := gives_the_satisfying_docs fourWordsChunk withoutB
    (by decide +kernel) (by decide +kernel)
  obtain rfl : [5, 12] = docs := Option.some_inj.mp (hrun.symm.trans hdocs)
  exact ⟨hrun, hmem⟩

/-- `f ((a|b) -c | e)` -/
def eitherSide : ASTNode :=
  .and [.term ⟨[102], false, false, 0⟩,
    .or [.and [.or [.term ⟨[97], false, false, 1⟩, .term ⟨[98], false, false, 2⟩],
        .term ⟨[99], true, false, 3⟩],
      .term ⟨[101], false, false, 4⟩]]

/-- The first doc of the inner AND is 10, and the stream of `c` then stands in doc 12. The probe of
`c` in doc 5, which has `c`, is late. -/
theorem late_probe_gives_a_doc_with_c :
    parseQueryAst [102, 32, 40, 40, 97, 124, 98, 41, 32, 45, 99, 32, 124, 32, 101, 41] =
        .ok eitherSide ∧
      (∃ root ∈ buildIsrTree fourWordsChunk.index eitherSide, isDriveable root = true) ∧
      treeDocs fourWordsChunk.index eitherSide = some [5] ∧
      ¬Satisfies fourWordsChunk eitherSide 5 := by
  refine ⟨rfl, by decide +kernel, by decide +kernel, ?_⟩
  have hc : Occurs fourWordsChunk 5 false [99] := ⟨⟨5, 2⟩, by decide, rfl⟩
  have he : ¬Occurs fourWordsChunk 5 false [101] := by
    rintro ⟨p, hp, -⟩
    cases hp
  rintro ⟨_, ⟨_, hnot, _⟩ | hin | hnone, _⟩
  · exact hnot hc
  · exact he hin
  · exact hnone

end seamus.query_engine
