-- `index_chunk/ranked_buffer.h`: a buffer of the best pages of one source, and the merge of the
-- buffers of several sources.
import Seamus.QueryResults

open top_k seamus.query_results

namespace seamus.ranked_buffer

variable {σ : Type} [LinearOrder σ]

/-! ## The source functions -/

def CAPACITY : Nat := 10

/-- A doc with the score that the ranker gives for it and the title that the url store has. -/
structure Doc (σ : Type) where
  url : Bytes
  score : σ
  title : Option Bytes

def Doc.page (doc : Doc σ) : LeanPage σ := ⟨doc.url, doc.title.getD [], doc.score⟩

/-- The new page goes up, past the pages before it with a lower score. They come the last one
first. -/
def bubbleUp (page : LeanPage σ) : List (LeanPage σ) → List (LeanPage σ)
  | [] => [page]
  | x :: before => if page.score ≤ x.score then page :: x :: before else x :: bubbleUp page before

/-- The page is appended and goes up. -/
def place (page : LeanPage σ) (pages : List (LeanPage σ)) : List (LeanPage σ) :=
  (bubbleUp page pages.reverse).reverse

/-- `RankedBuffer::insert`. -/
def insert (pages : List (LeanPage σ)) (doc : Doc σ) : List (LeanPage σ) × Bool :=
  if isRejected CAPACITY pages doc.page then (pages, false)
  else
    let pages := if pages.length = CAPACITY then pages.dropLast else pages
    (place doc.page pages, true)

def drainInto (data : List (Doc σ)) (buffer : List (LeanPage σ)) : List (LeanPage σ) :=
  data.foldl (fun pages doc => (insert pages doc).1) buffer

/-- `best == k || (*iters[i]).score > (*iters[best]).score`. -/
def takeBetter (best : Option (Nat × LeanPage σ)) (i : Nat) (page : LeanPage σ) :
    Nat × LeanPage σ :=
  match best with
  | none => (i, page)
  | some (b, bestPage) => if bestPage.score < page.score then (i, page) else (b, bestPage)

/-- The iterator with the best page, with that page. An iterator is what it has left. -/
def findBest (best : Option (Nat × LeanPage σ)) (i : Nat) :
    List (List (LeanPage σ)) → Option (Nat × LeanPage σ)
  | [] => best
  | [] :: iters => findBest best (i + 1) iters
  | (page :: _) :: iters => findBest (some (takeBetter best i page)) (i + 1) iters

/-- As many pages as there is room for. -/
def mergeLoop : Nat → List (List (LeanPage σ)) → List (LeanPage σ)
  | 0, _ => []
  | room + 1, iters =>
    match findBest none 0 iters with
    | none => []
    | some (best, page) => page :: mergeLoop room (iters.modify best List.tail)

/-- The merged pages, and the buffers after it. -/
def mergeTopPages (buffers : List (List (LeanPage σ))) (cap : Nat) :
    List (LeanPage σ) × List (List (LeanPage σ)) :=
  (mergeLoop cap buffers, buffers.map fun _ => [])

/-! ## One buffer -/

variable {pages all : List (LeanPage σ)} {page : LeanPage σ}

theorem bubbleUp_perm (page : LeanPage σ) (before : List (LeanPage σ)) :
    (bubbleUp page before).Perm (page :: before) := by
  induction before with
  | nil => exact List.Perm.refl _
  | cons x before ih =>
    unfold bubbleUp
    split
    · exact List.Perm.refl _
    · exact (ih.cons x).trans (List.Perm.swap page x before)

theorem bubbleUp_sorted {before : List (LeanPage σ)}
    (h : before.Pairwise fun x y => x.score ≤ y.score) :
    (bubbleUp page before).Pairwise fun x y => x.score ≤ y.score := by
  induction before with
  | nil => exact List.pairwise_singleton _ _
  | cons x before ih =>
    obtain ⟨hx, hbefore⟩ := List.pairwise_cons.mp h
    unfold bubbleUp
    split
    · rename_i hle
      refine List.pairwise_cons.mpr ⟨fun y hy => ?_, h⟩
      rcases List.mem_cons.mp hy with rfl | hy
      · exact hle
      · exact hle.trans (hx y hy)
    · rename_i hlt
      refine List.pairwise_cons.mpr ⟨fun y hy => ?_, ih hbefore⟩
      rcases List.mem_cons.mp ((bubbleUp_perm page before).mem_iff.mp hy) with rfl | hy
      · exact le_of_not_ge hlt
      · exact hx y hy

theorem place_perm (page : LeanPage σ) (pages : List (LeanPage σ)) :
    (place page pages).Perm (page :: pages) :=
  (List.reverse_perm _).trans
    ((bubbleUp_perm page pages.reverse).trans ((List.reverse_perm pages).cons page))

theorem place_descending (h : Descending LeanPage.score pages) :
    Descending LeanPage.score (place page pages) :=
  List.pairwise_reverse.mpr (bubbleUp_sorted (List.pairwise_reverse.mpr h))

/-- A page that is better than the last one goes up past it. -/
theorem place_concat {last : LeanPage σ} (h : last.score < page.score) :
    place page (pages ++ [last]) = place page pages ++ [last] := by
  rw [place, List.reverse_append, List.reverse_singleton, List.singleton_append, bubbleUp,
    if_neg (not_le_of_gt h), List.reverse_cons, place]

theorem insert_eq_take (hlength : pages.length ≤ CAPACITY) (doc : Doc σ)
    (haccepted : isRejected CAPACITY pages doc.page = false) :
    (insert pages doc).1 = (place doc.page pages).take CAPACITY := by
  rw [insert, haccepted, if_neg Bool.false_ne_true]
  simp only
  split
  · rename_i hfull
    obtain ⟨init, last, rfl⟩ := List.eq_nil_or_concat' pages |>.resolve_left
      (fun hnil => by rw [hnil] at hfull; cases hfull)
    have hbetter : last.score < doc.page.score := by
      simpa [isRejected, hfull] using haccepted
    have hinit : (place doc.page init).length = CAPACITY := by
      rw [(place_perm _ _).length_eq, List.length_cons, ← hfull, List.length_append]
      rfl
    rw [place_concat hbetter, List.dropLast_concat, List.take_left' hinit]
  · rename_i hroom
    refine (List.take_of_length_le ?_).symm
    rw [(place_perm _ _).length_eq, List.length_cons]
    omega

theorem insert_keeps (h : Keeps CAPACITY pages all) (doc : Doc σ) :
    Keeps CAPACITY (insert pages doc).1 (doc.page :: all) := by
  cases hrejected : isRejected CAPACITY pages doc.page with
  | true =>
    rw [insert, hrejected, if_pos rfl]
    exact h.rejected hrejected
  | false =>
    have hperm := place_perm doc.page pages
    have hdescending := @place_descending _ _ pages doc.page h.descending
    rw [insert_eq_take h.length_le doc hrejected]
    refine ⟨hdescending.sublist (List.take_sublist _ _), h.isTop.cons_take hperm hdescending, ?_⟩
    exact ((List.take_sublist _ _).subperm.trans hperm.subperm).trans
      ((List.subperm_cons doc.page).mpr h.subperm)

/-- At all times the buffer has the best of what came in. -/
theorem drainInto_keeps (data : List (Doc σ)) {buffer : List (LeanPage σ)}
    (h : Keeps CAPACITY buffer all) :
    Keeps CAPACITY (drainInto data buffer) (all ++ data.map Doc.page) := by
  induction data generalizing buffer all with
  | nil =>
    rw [List.map_nil, List.append_nil]
    exact h
  | cons doc data ih =>
    have hrest := ih (insert_keeps h doc)
    exact hrest.of_perm List.perm_middle.symm

/-! ## The merge -/

variable {iters : List (List (LeanPage σ))} {best : Option (Nat × LeanPage σ)} {i b : Nat}

theorem takeBetter_cases (best : Option (Nat × LeanPage σ)) (i : Nat) (page : LeanPage σ) :
    (takeBetter best i page = (i, page) ∨ best = some (takeBetter best i page)) ∧
      page.score ≤ (takeBetter best i page).2.score ∧
      ∀ x ∈ best, x.2.score ≤ (takeBetter best i page).2.score := by
  cases best with
  | none => exact ⟨Or.inl rfl, le_rfl, fun x hx => by cases hx⟩
  | some best =>
    rw [takeBetter]
    split
    · rename_i hlt
      refine ⟨Or.inl rfl, le_rfl, ?_⟩
      rintro x ⟨⟩
      exact le_of_lt hlt
    · rename_i hle
      refine ⟨Or.inr rfl, le_of_not_gt hle, ?_⟩
      rintro x ⟨⟩
      exact le_rfl

theorem findBest_none (h : findBest best i iters = none) : best = none ∧ ∀ it ∈ iters, it = [] := by
  induction iters generalizing best i with
  | nil => exact ⟨h, fun _ hit => by cases hit⟩
  | cons it iters ih =>
    cases it with
    | nil =>
      obtain ⟨hbest, hnil⟩ := ih h
      exact ⟨hbest, List.forall_mem_cons.mpr ⟨rfl, hnil⟩⟩
    | cons page rest => cases (ih h).1

theorem findBest_some (h : findBest best i iters = some (b, page)) :
    (best = some (b, page) ∨ ∃ j rest, b = i + j ∧ iters[j]? = some (page :: rest)) ∧
      (∀ x ∈ best, x.2.score ≤ page.score) ∧
      ∀ x rest, x :: rest ∈ iters → x.score ≤ page.score := by
  induction iters generalizing best i with
  | nil =>
    obtain rfl : best = some (b, page) := h
    refine ⟨Or.inl rfl, ?_, fun x rest hit => by cases hit⟩
    rintro x ⟨⟩
    exact le_rfl
  | cons it iters ih =>
    cases it with
    | nil =>
      obtain ⟨hfrom, hbest, hheads⟩ := ih h
      refine ⟨hfrom.imp_right ?_, hbest, ?_⟩
      · rintro ⟨j, rest, rfl, hj⟩
        exact ⟨j + 1, rest, by omega, hj⟩
      · intro x rest hit
        rcases List.mem_cons.mp hit with hit | hit
        · cases hit
        · exact hheads x rest hit
    | cons first rest =>
      obtain ⟨hfrom, hbest, hheads⟩ := ih h
      obtain ⟨hcases, hfirst, hold⟩ := takeBetter_cases best i first
      have hle := hbest _ rfl
      refine ⟨?_, fun x hx => (hold x hx).trans hle, ?_⟩
      · rcases hfrom with hsame | ⟨j, rest, rfl, hj⟩
        · rw [Option.some_inj] at hsame
          rw [hsame] at hcases
          rcases hcases with hnew | hkept
          · cases hnew
            exact Or.inr ⟨0, rest, rfl, rfl⟩
          · exact Or.inl hkept
        · exact Or.inr ⟨j + 1, rest, by omega, hj⟩
      · intro x rest' hit
        rcases List.mem_cons.mp hit with hit | hit
        · cases hit
          exact hfirst.trans hle
        · exact hheads x rest' hit

omit [LinearOrder σ] in
theorem modify_tail_flatten {j : Nat} {rest : List (LeanPage σ)}
    (h : iters[j]? = some (page :: rest)) :
    iters.flatten.Perm (page :: (iters.modify j List.tail).flatten) := by
  induction iters generalizing j with
  | nil => cases h
  | cons it iters ih =>
    cases j with
    | zero =>
      obtain rfl : it = page :: rest := Option.some.inj h
      exact List.Perm.refl _
    | succ j =>
      have hrest := (ih h).append_left it
      exact hrest.trans List.perm_middle

theorem modify_tail_descending (h : ∀ it ∈ iters, Descending LeanPage.score it) (j : Nat) :
    ∀ it ∈ iters.modify j List.tail, Descending LeanPage.score it := by
  intro it hit
  obtain ⟨k, hk⟩ := List.mem_iff_getElem?.mp hit
  rw [List.getElem?_modify] at hk
  obtain ⟨old, hold, rfl⟩ := Option.map_eq_some_iff.mp hk
  have hmem := h old (List.mem_of_getElem? hold)
  split
  · exact hmem.sublist (List.tail_sublist old)
  · exact hmem

/-- The page that goes next is above all that is left. -/
theorem findBest_max (h : ∀ it ∈ iters, Descending LeanPage.score it)
    (hbest : findBest none 0 iters = some (b, page)) {y : LeanPage σ} (hy : y ∈ iters.flatten) :
    y.score ≤ page.score := by
  obtain ⟨it, hit, hy⟩ := List.mem_flatten.mp hy
  cases it with
  | nil => cases hy
  | cons x rest =>
    have hx := (findBest_some hbest).2.2 x rest hit
    rcases List.mem_cons.mp hy with rfl | hy
    · exact hx
    · exact ((List.pairwise_cons.mp (h _ hit)).1 y hy).trans hx

theorem mergeLoop_keeps (room : Nat) (h : ∀ it ∈ iters, Descending LeanPage.score it) :
    Keeps room (mergeLoop room iters) iters.flatten := by
  induction room generalizing iters with
  | zero => exact ⟨.nil, fun p _ => by simp [mergeLoop], List.nil_subperm⟩
  | succ room ih =>
    rw [mergeLoop]
    cases hbest : findBest none 0 iters with
    | none =>
      have hnil : iters.flatten = [] :=
        List.flatten_eq_nil_iff.mpr (findBest_none hbest).2
      rw [hnil]
      exact ⟨.nil, fun p _ => by simp, List.Subperm.refl _⟩
    | some found =>
      obtain ⟨b, page⟩ := found
      obtain ⟨j, rest, rfl, hj⟩ := (findBest_some hbest).1.resolve_left (fun hnone => by cases hnone)
      rw [Nat.zero_add]
      have hperm := modify_tail_flatten hj
      have hrest := ih (modify_tail_descending h j)
      have hmax : ∀ y ∈ (iters.modify j List.tail).flatten, y.score ≤ page.score :=
        fun y hy => findBest_max h hbest (hperm.mem_iff.mpr (List.mem_cons_of_mem page hy))
      refine Keeps.of_perm ⟨?_, ?_, (List.subperm_cons page).mpr hrest.subperm⟩ hperm.symm
      · exact List.pairwise_cons.mpr ⟨fun y hy => hmax y (hrest.subperm.subset hy), hrest.descending⟩
      · exact hrest.isTop.cons_max hrest.subperm.subset hmax

/-- Each buffer holds the best of its docs in order, and their merge is the best of all docs. -/
theorem buffers_merge_exactly (docs : List (List (Doc σ))) {cap : Nat} (hcap : cap ≤ CAPACITY) :
    (∀ data : List (Doc σ),
      (drainInto data []).Pairwise (fun x y => y.score ≤ x.score) ∧
        (drainInto data []).map LeanPage.score =
          ((data.map Doc.score).mergeSort fun x y => decide (y ≤ x)).take CAPACITY ∧
        (drainInto data []).Subperm (data.map Doc.page)) ∧
      let merged := (mergeTopPages (docs.map fun data => drainInto data []) cap).1
      merged.Pairwise (fun x y => y.score ≤ x.score) ∧
        merged.map LeanPage.score =
          ((docs.flatten.map Doc.score).mergeSort fun x y => decide (y ≤ x)).take cap ∧
        merged.Subperm (docs.flatten.map Doc.page) := by
  have hstart : Keeps CAPACITY ([] : List (LeanPage σ)) [] :=
    ⟨.nil, fun _ _ => rfl, List.Subperm.refl _⟩
  have hscores : ∀ data : List (Doc σ),
      (data.map Doc.page).map LeanPage.score = data.map Doc.score := by
    intro data
    rw [List.map_map]
    rfl
  have hbuffer : ∀ data : List (Doc σ), Keeps CAPACITY (drainInto data []) (data.map Doc.page) :=
    fun data => drainInto_keeps data hstart
  have hparts : List.Forall₂ (Keeps CAPACITY) (docs.map fun data => drainInto data [])
      (docs.map fun data => data.map Doc.page) := by
    rw [List.forall₂_map_left_iff, List.forall₂_map_right_iff]
    exact List.forall₂_same.mpr fun data _ => hbuffer data
  refine ⟨fun data => ?_, ?_⟩
  · have h := hbuffer data
    exact ⟨h.descending, (hscores data) ▸ h.isTop.map_score_eq h.descending, h.subperm⟩
  · intro merged
    have hmerged : Keeps cap merged (docs.flatten.map Doc.page) := by
      rw [List.map_flatten]
      refine Keeps.flatten hcap hparts (mergeLoop_keeps cap ?_)
      intro it hit
      obtain ⟨data, _, rfl⟩ := List.mem_map.mp hit
      exact (hbuffer data).descending
    exact ⟨hmerged.descending, hscores _ ▸ hmerged.isTop.map_score_eq hmerged.descending,
      hmerged.subperm⟩

/-- A doc of which only the score matters. -/
def scoredDoc (score : Nat) : Doc Nat := ⟨[], score, none⟩

/-- Two of three docs from two buffers, one of which is empty. -/
theorem two_of_three_docs :
    [7, 5] = (([[scoredDoc 2, scoredDoc 7, scoredDoc 5], []].flatten.map Doc.score).mergeSort
      fun x y => decide (y ≤ x)).take 2 := by
  have hmerged : (mergeTopPages ([[scoredDoc 2, scoredDoc 7, scoredDoc 5], []].map
      fun data => drainInto data []) 2).1.map LeanPage.score = [7, 5] := by decide +kernel
  exact hmerged.symm.trans
    (buffers_merge_exactly [[scoredDoc 2, scoredDoc 7, scoredDoc 5], []] (by decide)).2.2.1

end seamus.ranked_buffer
