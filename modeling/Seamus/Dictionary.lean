-- The laws of the dictionary: a word that was indexed is found again by the
-- binary search of `LoadedIndex::lookup`, in the order that the writer's sort
-- left. The search compares bytes without a sign and the sort compares `char`s,
-- so this holds of the sets of words on which the two orders are the same.
import Seamus.Basic
import Seamus.Sort
import Seamus.Library.BinarySearch
import Mathlib.Order.Compare

open seamus.sort

namespace seamus.dictionary

/-! ## The source functions -/

structure DictEntry where
  word : Bytes
  wordLen : Nat
  postingOffset : Nat
  nPosts : Nat
  deriving DecidableEq, Repr, Inhabited

/-- `memcmp` of the first `n` bytes. -/
def memcmp : Nat → Bytes → Bytes → Ordering
  | n + 1, x :: xs, y :: ys =>
    match compare x y with
    | .eq => memcmp n xs ys
    | o => o
  | _, _, _ => .eq

/-- The comparison of an entry with the target, in the loop of `lookup`. -/
def compareEntry (e : DictEntry) (target : Bytes) : Ordering :=
  let minLen := if target.length < e.wordLen then target.length else e.wordLen
  match memcmp minLen e.word target with
  | .eq =>
    if e.wordLen = target.length then .eq
    else if e.wordLen < target.length then .lt else .gt
  | o => o

/-- `LoadedIndex::lookup`. -/
def lookup (dictEntries : List DictEntry) (word : Bytes) : Option DictEntry :=
  (binary_search.search (fun mid => compareEntry (dictEntries.getD mid default) word)
    (dictEntries.length + 1) 0 dictEntries.length).bind (dictEntries[·]?)

/-- The entry of a word, as the loader builds it. -/
def entryOf (offset nPosts : Bytes → Nat) (word : Bytes) : DictEntry where
  word := word
  wordLen := u32 word.length
  postingOffset := offset word
  nPosts := nPosts word

/-! ## The order of the search -/

/-- The length decides after the common bytes: this is the order of the byte strings. -/
theorem memcmp_min (u v : Bytes) :
    (match memcmp (if v.length < u.length then v.length else u.length) u v with
      | .eq => if u.length = v.length then .eq
        else if u.length < v.length then Ordering.lt else .gt
      | o => o) = compare u v := by
  induction u generalizing v with
  | nil => cases v <;> simp [memcmp]
  | cons x u ih =>
    cases v with
    | nil => simp [memcmp]
    | cons y v =>
      have hmin : (if (y :: v).length < (x :: u).length then (y :: v).length
          else (x :: u).length) = (if v.length < u.length then v.length else u.length) + 1 := by
        simp only [List.length_cons]
        split_ifs <;> omega
      rw [hmin]
      simp only [memcmp, List.compare_cons_cons, ← ih v, List.length_cons, Nat.add_right_cancel_iff,
        Nat.add_lt_add_iff_right]
      cases compare x y <;> rfl

theorem compareEntry_eq (e : DictEntry) (target : Bytes) (h : e.wordLen = e.word.length) :
    compareEntry e target = compare e.word target := by
  rw [← memcmp_min, compareEntry, h]

/-- The byte as `memcmp` compares it. -/
def unsignedByte (b : UInt8) : Int := b.toNat

theorem below_cons (key : UInt8 → Int) (x y : UInt8) (u v : Bytes) :
    Below key (x :: u) (y :: v) ↔ key x < key y ∨ (x = y ∧ Below key u v) := by
  constructor
  · rintro ⟨k, hm, hk⟩
    cases k with
    | zero => exact Or.inl hk
    | succ k =>
      refine Or.inr ⟨hm 0 (Nat.succ_pos k), k, fun m hmk => ?_, hk⟩
      exact hm (m + 1) (Nat.succ_lt_succ hmk)
  · rintro (h | ⟨rfl, k, hm, hk⟩)
    · exact ⟨0, fun m hm => absurd hm (Nat.not_lt_zero m), h⟩
    · refine ⟨k + 1, fun m hmk => ?_, hk⟩
      cases m with
      | zero => rfl
      | succ m => exact hm m (Nat.lt_of_succ_lt_succ hmk)

theorem compare_byte_lt (x y : UInt8) : compare x y = .lt ↔ unsignedByte x < unsignedByte y := by
  rw [Std.compare_eq_lt, UInt8.lt_iff_toNat_lt]
  unfold unsignedByte
  omega

/-- Of words without a NUL, the search takes the one for smaller whose first
different byte is smaller. -/
theorem compare_lt_iff_below (u v : Bytes) (hu : ∀ b ∈ u, b ≠ 0) (hv : ∀ b ∈ v, b ≠ 0) :
    compare u v = .lt ↔ Below unsignedByte u v := by
  induction u generalizing v with
  | nil =>
    cases v with
    | nil =>
      constructor
      · intro h
        cases h
      · intro h
        exact absurd h (Below.irrefl _ _)
    | cons y v =>
      have hy : y.toNat ≠ 0 := fun h => hv y List.mem_cons_self (UInt8.toNat_inj.1 h)
      simp only [List.compare_nil_cons, true_iff]
      refine ⟨0, fun m hm => absurd hm (Nat.not_lt_zero m), ?_⟩
      have h0 : unsignedByte (byteAt [] 0) = 0 := rfl
      have hy0 : byteAt (y :: v) 0 = y := rfl
      rw [h0, hy0]
      unfold unsignedByte
      omega
  | cons x u ih =>
    cases v with
    | nil =>
      have hx : x ≠ 0 := hu x List.mem_cons_self
      simp only [List.compare_cons_nil, reduceCtorEq, false_iff]
      rintro ⟨k, hm, hk⟩
      cases k with
      | zero =>
        have h0 : unsignedByte (byteAt [] 0) = 0 := rfl
        rw [h0] at hk
        unfold unsignedByte at hk
        omega
      | succ k => exact hx (hm 0 (Nat.succ_pos k))
    | cons y v =>
      have tail := ih v (fun b hb => hu b (List.mem_cons_of_mem _ hb))
        (fun b hb => hv b (List.mem_cons_of_mem _ hb))
      rw [below_cons, List.compare_cons_cons, Ordering.then_eq_lt, compare_byte_lt, Std.compare_eq_iff_eq,
        tail]

/-! ## The laws -/

/-- A set of words that `index_file` admits, in the order in which the map iterates. -/
structure WordSet where
  words : List Bytes
  distinct : words.Nodup
  indexable : ∀ w ∈ words, Indexable w

/-- Every indexed word can be found again. -/
def EveryWordFound (offset nPosts : Bytes → Nat) (words : List Bytes) : Prop :=
  ∃ fuel order, sortEntries fuel words = some order ∧ order.Perm words ∧
    (∀ w ∈ words, lookup (order.map (entryOf offset nPosts)) w = some (entryOf offset nPosts w)) ∧
    ∀ w, w ∉ words → lookup (order.map (entryOf offset nPosts)) w = none

/-- The two orders of the bytes agree on the words: where two of them first
differ, both bytes are below 0x80 or neither is. -/
def SameSigns (words : List Bytes) : Prop :=
  ∀ u ∈ words, ∀ v ∈ words, ∀ k, (∀ m < k, byteAt u m = byteAt v m) →
    byteAt u k ≠ byteAt v k → ((byteAt u k).toNat < 128 ↔ (byteAt v k).toNat < 128)

theorem sameSigns_of_ascii {words : List Bytes} (h : ∀ w ∈ words, ∀ b ∈ w, b.toNat < 128) :
    SameSigns words := by
  have hbyte (w : Bytes) (hw : w ∈ words) (k : Nat) : (byteAt w k).toNat < 128 := by
    unfold byteAt
    rw [List.getD_eq_getElem?_getD]
    cases hget : w[k]? with
    | none => decide
    | some b => exact h w hw b (List.mem_of_getElem? hget)
  exact fun u hu v hv k _ _ => iff_of_true (hbyte u hu k) (hbyte v hv k)

theorem signed_lt_iff (a b : UInt8) (h : a.toNat < 128 ↔ b.toNat < 128) :
    signedByte a < signedByte b ↔ unsignedByte a < unsignedByte b := by
  unfold signedByte unsignedByte
  split_ifs <;> omega

theorem same_sign_of_lt (a b : UInt8) (hs : signedByte a < signedByte b)
    (hu : unsignedByte a < unsignedByte b) : a.toNat < 128 ↔ b.toNat < 128 := by
  have ha := a.toNat_lt
  have hb := b.toNat_lt
  unfold signedByte at hs
  unfold unsignedByte at hu
  split_ifs at hs <;> omega

/-- What `lookup` asks at an index of the dictionary. -/
theorem compareEntry_order (offset nPosts : Bytes → Nat) (order : List Bytes) (target : Bytes)
    (i : Nat) (hshort : ∀ w ∈ order, w.length < 2 ^ 32) (hi : i < order.length) :
    compareEntry ((order.map (entryOf offset nPosts)).getD i default) target =
      compare (order.getD i []) target := by
  have hlen := hshort _ (List.getElem_mem hi)
  rw [List.getD_eq_getElem _ _ (by simpa using hi), List.getD_eq_getElem _ _ hi, List.getElem_map,
    compareEntry_eq _ _ (u32_of_lt hlen)]
  rfl

/-- A word of another set is never found: the search only stops at an equal word. -/
theorem lookup_eq_none (offset nPosts : Bytes → Nat) (order : List Bytes) (w : Bytes)
    (hshort : ∀ w ∈ order, w.length < 2 ^ 32) (hw : w ∉ order) :
    lookup (order.map (entryOf offset nPosts)) w = none := by
  unfold lookup
  rw [List.length_map]
  cases hs : binary_search.search (fun mid =>
      compareEntry ((order.map (entryOf offset nPosts)).getD mid default) w)
      (order.length + 1) 0 order.length with
  | none => rfl
  | some i =>
    exfalso
    obtain ⟨-, hi, heq⟩ := binary_search.search_sound _ _ _ _ _ hs
    rw [compareEntry_order offset nPosts order w i hshort hi, Std.compare_eq_iff_eq,
      List.getD_eq_getElem _ _ hi] at heq
    exact hw (heq ▸ List.getElem_mem hi)

/-- In a dictionary in the order of the search, the word at an index is found there. -/
theorem lookup_of_sorted (offset nPosts : Bytes → Nat) (order : List Bytes) (k : Nat)
    (hshort : ∀ w ∈ order, w.length < 2 ^ 32) (hk : k < order.length)
    (hsorted : order.Pairwise (fun u v => compare u v = .lt)) :
    lookup (order.map (entryOf offset nPosts)) order[k] = some (entryOf offset nPosts order[k]) := by
  have hlt := List.pairwise_iff_getElem.1 hsorted
  have hs := binary_search.search_finds (fun mid =>
    compareEntry ((order.map (entryOf offset nPosts)).getD mid default) order[k])
    (order.length + 1) 0 order.length k (by omega) (Nat.zero_le _) hk
    (by
      intro i _ hik
      rw [compareEntry_order offset nPosts order _ i hshort (by omega),
        List.getD_eq_getElem _ _ (by omega)]
      exact hlt i k (by omega) hk hik)
    (by
      rw [compareEntry_order offset nPosts order _ k hshort hk, List.getD_eq_getElem _ _ hk,
        Std.compare_eq_iff_eq])
    (by
      intro i hki hi
      rw [compareEntry_order offset nPosts order _ i hshort hi, List.getD_eq_getElem _ _ hi]
      exact Std.OrientedCmp.gt_iff_lt.2 (hlt k i hk hi hki))
  unfold lookup
  rw [List.length_map, hs]
  simp [hk]

/-- The converse: a dictionary whose words are all found is in the order of the search. -/
theorem sorted_of_lookup (offset nPosts : Bytes → Nat) (order : List Bytes)
    (hnodup : order.Nodup) (hshort : ∀ w ∈ order, w.length < 2 ^ 32)
    (hfound : ∀ w ∈ order,
      lookup (order.map (entryOf offset nPosts)) w = some (entryOf offset nPosts w)) :
    order.Pairwise (fun u v => compare u v = .lt) := by
  rw [List.pairwise_iff_getElem]
  intro i j hi hj hij
  have key := binary_search.increasing_of_search compare (fun i => order.getD i [])
    (order.length + 1) 0 order.length
    (by
      intro k _ hk
      have hf := hfound _ (List.getElem_mem hk)
      unfold lookup at hf
      rw [List.length_map] at hf
      obtain ⟨m, hm, hget⟩ := Option.bind_eq_some_iff.1 hf
      obtain ⟨-, hmlt, heq⟩ := binary_search.search_sound _ _ _ _ _ hm
      have hmk : m = k := by
        rw [compareEntry_order offset nPosts order _ m hshort hmlt, Std.compare_eq_iff_eq,
          List.getD_eq_getElem _ _ hmlt] at heq
        exact (List.Nodup.getElem_inj_iff hnodup).1 heq
      rw [← hmk, ← hm]
      have hagree : ∀ a, a < order.length → compare (order.getD a []) (order.getD m []) =
          compareEntry ((order.map (entryOf offset nPosts)).getD a default) order[k] := by
        intro a ha
        rw [compareEntry_order offset nPosts order _ a hshort ha, List.getD_eq_getElem order [] hmlt]
        simp only [hmk]
      exact binary_search.search_congr _ _ _ _ _ (fun a _ ha => hagree a ha))
    i j (Nat.zero_le _) hij hj
  rwa [List.getD_eq_getElem _ _ hi, List.getD_eq_getElem _ _ hj] at key

/-- On words of the same signs, the sort's order is the search's order. -/
theorem below_of_sameSigns (words : List Bytes) (hsame : SameSigns words) (u v : Bytes)
    (hu : u ∈ words) (hv : v ∈ words) (h : Below signedByte u v) : Below unsignedByte u v := by
  obtain ⟨k, hm, hk⟩ := h
  have hne : byteAt u k ≠ byteAt v k := by
    intro heq
    rw [heq] at hk
    exact Int.lt_irrefl _ hk
  exact ⟨k, hm, (signed_lt_iff _ _ (hsame u hu v hv k hm hne)).1 hk⟩

/-- Words that both orders put in one sequence have the same signs. -/
theorem sameSigns_of_sorted (order : List Bytes) (hs : order.Pairwise (Below signedByte))
    (hu : order.Pairwise (Below unsignedByte)) : SameSigns order := by
  have hboth := hs.and hu
  have hpair : ∀ u ∈ order, ∀ v ∈ order, u ≠ v →
      (Below signedByte u v ∧ Below unsignedByte u v) ∨
        (Below signedByte v u ∧ Below unsignedByte v u) := by
    intro u hu' v hv' hne
    obtain ⟨i, hi, rfl⟩ := List.getElem_of_mem hu'
    obtain ⟨j, hj, rfl⟩ := List.getElem_of_mem hv'
    rcases Nat.lt_trichotomy i j with h | h | h
    · exact Or.inl (List.pairwise_iff_getElem.1 hboth i j hi hj h)
    · subst h
      exact absurd rfl hne
    · exact Or.inr (List.pairwise_iff_getElem.1 hboth j i hj hi h)
  intro u hu' v hv' k hm hne
  have huv : u ≠ v := fun h => hne (by rw [h])
  have hnes : signedByte (byteAt u k) ≠ signedByte (byteAt v k) :=
    fun h => hne (signedByte_injective _ _ h)
  have hneu : unsignedByte (byteAt u k) ≠ unsignedByte (byteAt v k) := by
    intro h
    unfold unsignedByte at h
    exact hne (UInt8.toNat_inj.1 (by omega))
  rcases hpair u hu' v hv' huv with ⟨h1, h2⟩ | ⟨h1, h2⟩
  · exact same_sign_of_lt _ _ ((below_iff_of_first _ _ _ _ hm hnes).1 h1)
      ((below_iff_of_first _ _ _ _ hm hneu).1 h2)
  · have hm' : ∀ m < k, byteAt v m = byteAt u m := fun m hmk => (hm m hmk).symm
    exact (same_sign_of_lt _ _ ((below_iff_of_first _ _ _ _ hm' hnes.symm).1 h1)
      ((below_iff_of_first _ _ _ _ hm' hneu.symm).1 h2)).symm

/-- Every word of a set is found again, and nothing else, exactly when the words
of the set have the same signs where they first differ. -/
theorem every_indexed_word_is_found_iff_same_signs (set : WordSet) (offset nPosts : Bytes → Nat) :
    EveryWordFound offset nPosts set.words ↔ SameSigns set.words := by
  obtain ⟨words, hnodup, hind⟩ := set
  simp only
  have hclean : ∀ w ∈ words, ∀ b ∈ w, b ≠ 0 := fun w hw => (hind w hw).noNul
  have hkept : words.filter hasSlot = words :=
    List.filter_eq_self.2 (fun w hw => (hind w hw).slot)
  obtain ⟨fuel, order, run, hperm, hsorted⟩ := sortEntries_spec words hnodup hclean
  rw [hkept] at hperm
  have hshort : ∀ w ∈ order, w.length < 2 ^ 32 := fun w hw => (hind w (hperm.mem_iff.1 hw)).short
  have hcleano : ∀ w ∈ order, ∀ b ∈ w, b ≠ 0 := fun w hw => hclean w (hperm.mem_iff.1 hw)
  constructor
  · rintro ⟨fuel', order', run', -, hfound, -⟩
    have heq := sortEntries_unique _ _ _ _ _ run' run
    subst heq
    have hu := sorted_of_lookup offset nPosts order' (hperm.nodup_iff.2 hnodup) hshort
      (fun w hw => hfound w (hperm.mem_iff.1 hw))
    have hsame := sameSigns_of_sorted order' hsorted (hu.imp_of_mem (fun hu' hv' h =>
      (compare_lt_iff_below _ _ (hcleano _ hu') (hcleano _ hv')).1 h))
    intro u hu' v hv'
    exact hsame u (hperm.mem_iff.2 hu') v (hperm.mem_iff.2 hv')
  · intro hsame
    have hu : order.Pairwise (fun u v => compare u v = .lt) :=
      hsorted.imp_of_mem (fun hu' hv' h => (compare_lt_iff_below _ _ (hcleano _ hu')
        (hcleano _ hv')).2 (below_of_sameSigns words hsame _ _ (hperm.mem_iff.1 hu')
          (hperm.mem_iff.1 hv') h))
    refine ⟨fuel, order, run, hperm, ?_, ?_⟩
    · intro w hw
      obtain ⟨k, hk, rfl⟩ := List.getElem_of_mem (hperm.mem_iff.2 hw)
      exact lookup_of_sorted offset nPosts order k hshort hk hu
    · intro w hw
      exact lookup_eq_none offset nPosts order w hshort (fun h => hw (hperm.mem_iff.1 h))

/-- `caf` and `café`: the sort puts the longer word first, and the search for it goes on behind
the shorter one. -/
theorem a_word_with_an_accent_is_lost :
    ∃ set : WordSet, set.words = [[99, 97, 102], [99, 97, 102, 0xC3, 0xA9]] ∧
      ¬ EveryWordFound (fun _ => 0) (fun _ => 1) set.words := by
  refine ⟨⟨[[99, 97, 102], [99, 97, 102, 0xC3, 0xA9]], by decide, ?_⟩, rfl, ?_⟩
  · intro w hw
    have hw' : w = [99, 97, 102] ∨ w = [99, 97, 102, 0xC3, 0xA9] := by simpa using hw
    rcases hw' with rfl | rfl
    · refine ⟨by decide, ?_, by decide⟩
      simp [space, newline]
    · refine ⟨by decide, ?_, by decide⟩
      simp [space, newline]
  · rintro ⟨fuel, order, run, -, hfound, -⟩
    have run' : sortEntries 20 [[99, 97, 102], [99, 97, 102, 0xC3, 0xA9]] =
        some [[99, 97, 102, 0xC3, 0xA9], [99, 97, 102]] := by decide
    have heq := sortEntries_unique _ _ _ _ _ run run'
    subst heq
    have h := hfound [99, 97, 102, 0xC3, 0xA9] (by decide)
    revert h
    decide

end seamus.dictionary
