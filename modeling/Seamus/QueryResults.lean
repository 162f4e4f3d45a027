-- The results of a query: `SmallPQ` of `ranker/Ranker.h` for each chunk, and the sorts and cuts of
-- `IndexManager::handle_query` and `QueryHandler::get_results`.
import Seamus.Basic
import Seamus.QuickSort
import Seamus.Library.TopK

open seamus.quick_sort top_k

namespace seamus.query_results

def RANKED_ON_EACH : Nat := 10

def NUM_RESULTS_RETURN : Nat := 10

/-! ## The source functions -/

/-- The type of the scores is left open: a `double` that is a number. -/
structure LeanPage (σ : Type) where
  url : Bytes
  title : Bytes
  score : σ
  deriving DecidableEq

variable {σ : Type} [LinearOrder σ]

/-- `while (insert_pos < v.size() && v[insert_pos].score > l.score) insert_pos++`. -/
def insertPos (l : LeanPage σ) : List (LeanPage σ) → Nat
  | [] => 0
  | x :: v => if l.score < x.score then insertPos l v + 1 else 0

/-- `v.size() == max_size && l.score <= v.back().score`. -/
def isRejected (maxSize : Nat) (v : List (LeanPage σ)) (l : LeanPage σ) : Bool :=
  match v.getLast? with
  | some back => v.length = maxSize && l.score ≤ back.score
  | none => false

/-- `SmallPQ::push`. -/
def push (maxSize : Nat) (v : List (LeanPage σ)) (l : LeanPage σ) : List (LeanPage σ) :=
  if isRejected maxSize v l then v
  else
    let v := v.insertIdx (insertPos l v) l
    if maxSize < v.length then v.dropLast else v

/-- `Ranker::rank`, with the scores of the pages. -/
def rank (pages : List (LeanPage σ)) : List (LeanPage σ) := pages.foldl (push RANKED_ON_EACH) []

/-- The comparison of both sorts. -/
def scoreGreater (a b : LeanPage σ) : Bool := b.score < a.score

def sortPages (all : List (LeanPage σ)) : List (LeanPage σ) :=
  (sort scoreGreater all.toArray).toList

/-- `all.resize(size)` when there are more. -/
def cut (size : Nat) (all : List (LeanPage σ)) : List (LeanPage σ) :=
  if size < all.length then all.take size else all

/-- The end of `IndexManager::handle_query`, with what the chunks have appended to the
collector. -/
def handleQuery (collector : List (List (LeanPage σ))) : List (LeanPage σ) :=
  cut RANKED_ON_EACH (sortPages collector.flatten)

/-- The end of `QueryHandler::get_results`, with the hits of the machines. -/
def getResults (hits : List (List (LeanPage σ))) : List (LeanPage σ) :=
  cut NUM_RESULTS_RETURN (sortPages hits.flatten)

/-- What a machine answers, whose chunks end in any order. -/
def Answers (chunks : List (List (LeanPage σ))) (hits : List (LeanPage σ)) : Prop :=
  ∃ collector, collector.Perm (chunks.map rank) ∧ hits = handleQuery collector

/-- What a query on the machines returns, whose answers come in any order. -/
def Returns (machines : List (List (List (LeanPage σ)))) (results : List (LeanPage σ)) : Prop :=
  ∃ answers hits, List.Forall₂ Answers machines answers ∧ hits.Perm answers ∧
    results = getResults hits

/-! ## One stage -/

/-- A stage keeps the best pages, in order, and makes none up. -/
structure Keeps (k : Nat) (out all : List (LeanPage σ)) : Prop where
  descending : Descending LeanPage.score out
  isTop : IsTop LeanPage.score k out all
  subperm : out.Subperm all

variable {k : Nat} {out all v : List (LeanPage σ)} {l : LeanPage σ}

theorem Keeps.length_le (h : Keeps k out all) : out.length ≤ k := by
  have htop := h.isTop (fun _ => true) (fun _ _ _ hx => hx)
  have hall : out.countP ((fun _ => true) ∘ LeanPage.score) = out.length :=
    List.countP_eq_length.mpr fun _ _ => rfl
  rw [hall] at htop
  omega

theorem insertIdx_perm (l : LeanPage σ) (v : List (LeanPage σ)) :
    (v.insertIdx (insertPos l v) l).Perm (l :: v) := by
  induction v with
  | nil => exact List.Perm.refl _
  | cons x v ih =>
    unfold insertPos
    split
    · rw [List.insertIdx_succ_cons]
      exact (ih.cons x).trans (List.Perm.swap l x v)
    · exact List.Perm.refl _

theorem insertIdx_descending (h : Descending LeanPage.score v) :
    Descending LeanPage.score (v.insertIdx (insertPos l v) l) := by
  unfold Descending at h ⊢
  induction v with
  | nil => exact List.pairwise_singleton _ _
  | cons x v ih =>
    obtain ⟨hx, hv⟩ := List.pairwise_cons.mp h
    unfold insertPos
    split
    · rename_i hlt
      rw [List.insertIdx_succ_cons, List.pairwise_cons]
      refine ⟨fun y hy => ?_, ih hv⟩
      rcases List.mem_cons.mp ((insertIdx_perm l v).mem_iff.mp hy) with rfl | hy
      · exact le_of_lt hlt
      · exact hx y hy
    · rename_i hle
      have hle := le_of_not_gt hle
      rw [List.insertIdx_zero, List.pairwise_cons]
      refine ⟨fun y hy => ?_, h⟩
      rcases List.mem_cons.mp hy with rfl | hy
      · exact hle
      · exact le_trans (hx y hy) hle

theorem last_le (h : Descending LeanPage.score v) {back x : LeanPage σ}
    (hback : v.getLast? = some back) (hx : x ∈ v) : back.score ≤ x.score := by
  obtain ⟨init, rfl⟩ := List.getLast?_eq_some_iff.mp hback
  rcases List.mem_append.mp hx with hx | hx
  · exact (List.pairwise_append.mp h).2.2 x hx back List.mem_cons_self
  · rw [List.mem_singleton.mp hx]

/-- A page that is rejected is among the best nowhere. -/
theorem Keeps.rejected (h : Keeps k v all) (hrejected : isRejected k v l = true) :
    Keeps k v (l :: all) := by
  refine ⟨h.descending, ?_, h.subperm.trans (List.sublist_cons_self l all).subperm⟩
  unfold isRejected at hrejected
  split at hrejected
  · rename_i back hback
    rw [Bool.and_eq_true, decide_eq_true_eq, decide_eq_true_eq] at hrejected
    obtain ⟨hfull, hle⟩ := hrejected
    exact h.isTop.cons_of_full hfull fun x hx => hle.trans (last_le h.descending hback hx)
  · cases hrejected

theorem Keeps.push (h : Keeps k v all) (l : LeanPage σ) : Keeps k (push k v l) (l :: all) := by
  unfold query_results.push
  cases hrejected : isRejected k v l with
  | true =>
    rw [if_pos rfl]
    exact h.rejected hrejected
  | false =>
    rw [if_neg Bool.false_ne_true]
    have hperm := insertIdx_perm l v
    have hdescending := @insertIdx_descending _ _ v l h.descending
    have hlength : (v.insertIdx (insertPos l v) l).length = v.length + 1 := hperm.length_eq
    have hcut : (let v := v.insertIdx (insertPos l v) l
        if k < v.length then v.dropLast else v) = (v.insertIdx (insertPos l v) l).take k := by
      have hle := h.length_le
      simp only
      split
      · rw [List.dropLast_eq_take]
        congr 1
        omega
      · exact (List.take_of_length_le (by omega)).symm
    rw [hcut]
    refine ⟨hdescending.sublist (List.take_sublist _ _), h.isTop.cons_take hperm hdescending, ?_⟩
    have hsub := (List.take_sublist k (v.insertIdx (insertPos l v) l)).subperm
    exact (hsub.trans hperm.subperm).trans ((List.subperm_cons l).mpr h.subperm)

/-- A chunk keeps its best pages. -/
theorem rank_keeps (pages : List (LeanPage σ)) : Keeps RANKED_ON_EACH (rank pages) pages := by
  have hstart : Keeps RANKED_ON_EACH ([] : List (LeanPage σ)) [] :=
    ⟨.nil, fun _ _ => rfl, List.Subperm.refl _⟩
  have hgo : ∀ (pages v all : List (LeanPage σ)), Keeps RANKED_ON_EACH v all →
      Keeps RANKED_ON_EACH (pages.foldl (query_results.push RANKED_ON_EACH) v) (all ++ pages) := by
    intro pages
    induction pages with
    | nil =>
      intro v all h
      rw [List.append_nil]
      exact h
    | cons l pages ih =>
      intro v all h
      have hnext := ih _ _ (h.push l)
      have hperm : (l :: all ++ pages).Perm (all ++ l :: pages) := List.perm_middle.symm
      exact ⟨hnext.descending, hnext.isTop.of_perm hperm, hnext.subperm.trans hperm.subperm⟩
  exact hgo pages [] [] hstart

theorem scoreGreater_strictOrder : StrictOrder (@scoreGreater σ _) where
  irrefl x := decide_eq_false (lt_irrefl x.score)
  trans _ _ _ hxy hyz := decide_eq_true (lt_trans (of_decide_eq_true hyz) (of_decide_eq_true hxy))

/-- A sort and a cut keep the best pages. -/
theorem cut_sortPages_keeps (k : Nat) (all : List (LeanPage σ)) :
    Keeps k (cut k (sortPages all)) all := by
  have hperm : (sortPages all).Perm all :=
    (Array.perm_iff_toList_perm.mp (sort_perm scoreGreater_strictOrder all.toArray))
  have hdescending : Descending LeanPage.score (sortPages all) :=
    (sort_sorted scoreGreater_strictOrder all.toArray).imp
      fun h => le_of_not_gt (of_decide_eq_false h)
  have hcut : cut k (sortPages all) = (sortPages all).take k := by
    unfold cut
    split
    · rfl
    · exact (List.take_of_length_le (by omega)).symm
  rw [hcut]
  exact ⟨hdescending.sublist (List.take_sublist _ _), (hdescending.isTop_take k).of_perm hperm,
    (List.take_sublist k _).subperm.trans hperm.subperm⟩

/-! ## All stages -/

/-- The best of what the parts have kept, of which they keep as many or more. -/
theorem Keeps.flatten {k' : Nat} (hk : k ≤ k') {outs alls : List (List (LeanPage σ))}
    (hparts : List.Forall₂ (Keeps k') outs alls) (h : Keeps k out outs.flatten) :
    Keeps k out alls.flatten := by
  have hsub : outs.flatten.Subperm alls.flatten := by
    clear h
    induction hparts with
    | nil => exact List.Subperm.refl _
    | cons hpart _ ih =>
      exact ((List.subperm_append_right _).mpr hpart.subperm).trans
        ((List.subperm_append_left _).mpr ih)
  exact ⟨h.descending, IsTop.flatten_of_le hk (hparts.imp fun _ _ hpart => hpart.isTop) h.isTop,
    h.subperm.trans hsub⟩

theorem Keeps.of_perm {all' : List (LeanPage σ)} (h : Keeps k out all) (hperm : all.Perm all') :
    Keeps k out all' :=
  ⟨h.descending, h.isTop.of_perm hperm, h.subperm.trans hperm.subperm⟩

/-- A machine answers with the best pages of its chunks. -/
theorem Answers.keeps {chunks : List (List (LeanPage σ))} {hits : List (LeanPage σ)}
    (h : Answers chunks hits) : Keeps RANKED_ON_EACH hits chunks.flatten := by
  obtain ⟨collector, hperm, rfl⟩ := h
  have hparts : List.Forall₂ (Keeps RANKED_ON_EACH) (chunks.map rank) chunks := by
    rw [List.forall₂_map_left_iff]
    exact List.forall₂_same.mpr fun pages _ => rank_keeps pages
  exact (Keeps.of_perm (cut_sortPages_keeps _ collector.flatten) hperm.flatten).flatten le_rfl hparts

/-- The results are in order, their scores are the best of all pages, and no page is among them
more often than it was supplied. -/
theorem results_are_the_best {machines : List (List (List (LeanPage σ)))}
    {results : List (LeanPage σ)} (h : Returns machines results) :
    let pages := machines.flatten.flatten
    results.Pairwise (fun x y => y.score ≤ x.score) ∧
      results.map LeanPage.score =
        ((pages.map LeanPage.score).mergeSort fun x y => decide (y ≤ x)).take NUM_RESULTS_RETURN ∧
      ∀ page, results.count page ≤ pages.count page := by
  obtain ⟨answers, hits, hanswers, hperm, rfl⟩ := h
  have hparts : List.Forall₂ (Keeps NUM_RESULTS_RETURN) answers (machines.map List.flatten) := by
    rw [List.forall₂_map_right_iff]
    exact hanswers.flip.imp fun _ _ hanswer => Answers.keeps hanswer
  have hflat : (machines.map List.flatten).flatten = machines.flatten.flatten := by
    rw [List.flatten_flatten]
  have hkeeps := ((cut_sortPages_keeps NUM_RESULTS_RETURN hits.flatten).of_perm
    hperm.flatten).flatten le_rfl hparts
  rw [hflat] at hkeeps
  exact ⟨hkeeps.descending, hkeeps.isTop.map_score_eq hkeeps.descending,
    fun page => hkeeps.subperm.count_le page⟩

/-- A page of which only the score matters. -/
def scored (score : Nat) : LeanPage Nat := ⟨[], [], score⟩

/-- Two machines whose chunks, and which themselves, end in the reverse order. -/
theorem results_of_two_machines :
    [scored 5, scored 3, scored 2, scored 1].map LeanPage.score =
      (([[[scored 3, scored 1], [scored 2]], [[], [scored 5]]].flatten.flatten.map
        LeanPage.score).mergeSort fun x y => decide (y ≤ x)).take NUM_RESULTS_RETURN := by
  have hreturns : Returns [[[scored 3, scored 1], [scored 2]], [[], [scored 5]]]
      [scored 5, scored 3, scored 2, scored 1] := by
    refine ⟨[handleQuery [rank [scored 2], rank [scored 3, scored 1]],
      handleQuery [rank [scored 5], rank []]], _, ?_, List.Perm.swap _ _ [], by decide +kernel⟩
    exact .cons ⟨_, List.Perm.swap _ _ [], rfl⟩ (.cons ⟨_, List.Perm.swap _ _ [], rfl⟩ .nil)
  exact (results_are_the_best hreturns).2.1

end seamus.query_results
