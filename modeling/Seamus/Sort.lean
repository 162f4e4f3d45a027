-- The laws of the writer's order: `IndexChunk::sort_entries` and the radix sort
-- of `lib/algorithm.h`. On distinct words it ends, and gives them in the
-- order of their first different byte, as `charAt` sees it.
import Seamus.Basic
import Seamus.Library.SegmentSwaps
import Mathlib.Data.List.GetD
import Mathlib.Data.List.Nodup
import Mathlib.Data.List.Perm.Basic

open segment_swaps

namespace seamus.sort

/-! ## The source functions -/

/-- The byte of a word at an index, 0 past the end. -/
def byteAt (w : Bytes) (i : Nat) : UInt8 := w.getD i 0

/-- A byte as the `char` that the code compares: signed, so from 0x80 on it is negative. -/
def signedByte (b : UInt8) : Int := if b.toNat < 128 then b.toNat else (b.toNat : Int) - 256

def charAt (w : Bytes) (i : Nat) : Int := signedByte (byteAt w i)

/-- `vec[i]`. -/
def at' (vec : Array Bytes) (i : Nat) : Bytes := vec.getD i []

/-- The three-way partition around the character `p` at `idx`: the `while` loop
on `lt`, `i` and `gt`. One turn of the loop per unit of the first argument. -/
def partitionLoop (p : Int) (idx : Nat) :
    Nat → Array Bytes → Nat → Nat → Nat → Array Bytes × Nat × Nat
  | 0, vec, lt, _, gt => (vec, lt, gt)
  | turns + 1, vec, lt, i, gt =>
    if i ≤ gt then
      let c := charAt (at' vec i) idx
      if c < p then partitionLoop p idx turns (vec.swapIfInBounds lt i) (lt + 1) (i + 1) gt
      else if c > p then partitionLoop p idx turns (vec.swapIfInBounds gt i) lt i (gt - 1)
      else partitionLoop p idx turns vec lt (i + 1) gt
    else (vec, lt, gt)

/-- `radix_sort` of the entries from `l` to `h` by the characters from `idx` on. -/
def radixSort : Nat → Array Bytes → Nat → Nat → Nat → Option (Array Bytes)
  | 0, _, _, _, _ => none
  | fuel + 1, vec, l, h, idx =>
    if h ≤ l then some vec
    else
      let (vec, lt, gt) := partitionLoop (charAt (at' vec l) idx) idx (h - l) vec l (l + 1) h
      (if lt > l then radixSort fuel vec l (lt - 1) idx else some vec).bind fun vec =>
        (radixSort fuel vec lt gt (idx + 1)).bind fun vec =>
          if gt + 1 ≤ h then radixSort fuel vec (gt + 1) h idx else some vec

def radixSortAll (fuel : Nat) (vec : Array Bytes) : Option (Array Bytes) :=
  if vec.size ≤ 1 then some vec else radixSort fuel vec 0 (vec.size - 1) 0

def isLetter (b : UInt8) : Bool := 97 ≤ b && b ≤ 122

/-- The keys that `sort_entries` does not drop. -/
def hasSlot : Bytes → Bool
  | [] => false
  | first :: _ => isLetter first || isDigit first

/-- `sort_entries`, from the keys in the order in which the map iterates. -/
def sortEntries (fuel : Nat) (keys : List Bytes) : Option (List Bytes) :=
  (radixSortAll fuel (keys.filter hasSlot).toArray).map Array.toList

/-- A word that `index_file` admits and `sort_entries` keeps. -/
structure Indexable (w : Bytes) : Prop where
  slot : hasSlot w = true
  clean : ∀ b ∈ w, b ≠ space ∧ b ≠ newline ∧ b ≠ 9 ∧ b ≠ 0
  short : w.length < 2 ^ 32

theorem Indexable.noNul {w : Bytes} (h : Indexable w) : ∀ b ∈ w, b ≠ 0 :=
  fun b hb => (h.clean b hb).2.2.2

theorem Indexable.ne_newline {w : Bytes} (h : Indexable w) :
    ∃ first rest, w = first :: rest ∧ first ≠ newline := by
  cases w with
  | nil => exact absurd h.slot (by decide)
  | cons first rest => exact ⟨first, rest, rfl, (h.clean first List.mem_cons_self).2.1⟩

theorem Indexable.noSpace {w : Bytes} (h : Indexable w) : space ∉ w :=
  fun hs => (h.clean space hs).1 rfl

/-! ## The order of the first difference -/

/-- `u` comes before `v` when its first different byte has the smaller key. -/
def Below (key : UInt8 → Int) (u v : Bytes) : Prop :=
  ∃ k, (∀ m < k, byteAt u m = byteAt v m) ∧ key (byteAt u k) < key (byteAt v k)

theorem byteAt_of_length_le (w : Bytes) (i : Nat) (h : w.length ≤ i) : byteAt w i = 0 :=
  List.getD_eq_default w 0 h

theorem byteAt_of_lt (w : Bytes) (i : Nat) (h : i < w.length) : byteAt w i = w[i] :=
  List.getD_eq_getElem w 0 h

theorem signedByte_injective (a b : UInt8) (h : signedByte a = signedByte b) : a = b := by
  have ha := a.toNat_lt
  have hb := b.toNat_lt
  apply UInt8.toNat_inj.1
  unfold signedByte at h
  split_ifs at h <;> omega

/-- Words without a NUL that agree at every index are the same. -/
theorem eq_of_byteAt (u v : Bytes) (hu : ∀ b ∈ u, b ≠ 0) (hv : ∀ b ∈ v, b ≠ 0)
    (h : ∀ k, byteAt u k = byteAt v k) : u = v := by
  have hlen : ∀ x y : Bytes, (∀ b ∈ y, b ≠ 0) → (∀ k, byteAt x k = byteAt y k) →
      y.length ≤ x.length := by
    intro x y hy hxy
    by_contra hlt
    have hk := hxy x.length
    rw [byteAt_of_length_le x _ (Nat.le_refl _), byteAt_of_lt y _ (by omega)] at hk
    exact hy _ (List.getElem_mem _) hk.symm
  have h1 := hlen u v hv h
  have h2 := hlen v u hu (fun k => (h k).symm)
  apply List.ext_getElem (by omega)
  intro i hi hi'
  have hk := h i
  rwa [byteAt_of_lt u i hi, byteAt_of_lt v i hi'] at hk

theorem Below.irrefl (key : UInt8 → Int) (u : Bytes) : ¬ Below key u u := by
  rintro ⟨k, -, h⟩
  exact Int.lt_irrefl _ h

/-- Two words with the same bytes before `k` and different keys there are
ordered by these keys. -/
theorem below_iff_of_first (key : UInt8 → Int) (u v : Bytes) (k : Nat)
    (hm : ∀ m < k, byteAt u m = byteAt v m) (hk : key (byteAt u k) ≠ key (byteAt v k)) :
    Below key u v ↔ key (byteAt u k) < key (byteAt v k) := by
  constructor
  · rintro ⟨j, hj, hlt⟩
    rcases Nat.lt_trichotomy j k with h | h | h
    · rw [hm j h] at hlt
      exact absurd hlt (Int.lt_irrefl _)
    · rwa [h] at hlt
    · exact absurd (congrArg key (hj k h)) hk
  · intro h
    exact ⟨k, hm, h⟩

/-! ## One partition -/

/-- What the loop of the partition keeps: the entries before `lt` have a smaller
character, the ones from `lt` to `i` the character `p`, the ones after `gt` a larger one. -/
structure Parted (p : Int) (idx l h : Nat) (start vec : Array Bytes) (lt i gt : Nat) : Prop where
  swaps : Swaps l h start vec
  bounds : l ≤ lt ∧ lt < i ∧ i ≤ gt + 1 ∧ gt ≤ h
  less : ∀ k x, l ≤ k → k < lt → vec[k]? = some x → charAt x idx < p
  same : ∀ k x, lt ≤ k → k < i → vec[k]? = some x → charAt x idx = p
  more : ∀ k x, gt < k → k ≤ h → vec[k]? = some x → p < charAt x idx

theorem at'_eq (vec : Array Bytes) (i : Nat) (x : Bytes) (h : vec[i]? = some x) :
    at' vec i = x := by
  simp [at', Array.getD_eq_getD_getElem?, h]

theorem getElem?_at' (vec : Array Bytes) (i : Nat) (h : i < vec.size) :
    vec[i]? = some (at' vec i) := by
  simp [at', h]

variable {p : Int} {idx l h lt i gt : Nat} {start vec : Array Bytes}

/-- A smaller character: its entry goes to the low end. -/
theorem Parted.toLow (inv : Parted p idx l h start vec lt i gt) (hsize : h < vec.size)
    (hi : i ≤ gt) (hc : charAt (at' vec i) idx < p) :
    Parted p idx l h start (vec.swapIfInBounds lt i) (lt + 1) (i + 1) gt := by
  obtain ⟨hs, ⟨b1, b2, b3, b4⟩, hless, hsame, hmore⟩ := inv
  have hlti : lt < vec.size := by omega
  have hii : i < vec.size := by omega
  refine ⟨hs.swap (by omega) (by omega), by omega, ?_, ?_, ?_⟩
  · intro k x h1 h2 hx
    rw [getElem?_swap vec lt i k hlti hii] at hx
    split_ifs at hx with e1 e2
    · rwa [← at'_eq vec i x hx]
    · omega
    · exact hless k x h1 (by omega) hx
  · intro k x h1 h2 hx
    rw [getElem?_swap vec lt i k hlti hii] at hx
    split_ifs at hx with e1 e2
    · omega
    · exact hsame lt x (Nat.le_refl _) b2 hx
    · exact hsame k x (by omega) (by omega) hx
  · intro k x h1 h2 hx
    rw [getElem?_swap vec lt i k hlti hii, if_neg (by omega), if_neg (by omega)] at hx
    exact hmore k x h1 h2 hx

/-- A larger character: its entry goes to the high end. -/
theorem Parted.toHigh (inv : Parted p idx l h start vec lt i gt) (hsize : h < vec.size)
    (hi : i ≤ gt) (hc : p < charAt (at' vec i) idx) :
    Parted p idx l h start (vec.swapIfInBounds gt i) lt i (gt - 1) := by
  obtain ⟨hs, ⟨b1, b2, b3, b4⟩, hless, hsame, hmore⟩ := inv
  have hgt : gt < vec.size := by omega
  have hii : i < vec.size := by omega
  refine ⟨hs.swap (by omega) (by omega), by omega, ?_, ?_, ?_⟩
  · intro k x h1 h2 hx
    rw [getElem?_swap vec gt i k hgt hii, if_neg (by omega), if_neg (by omega)] at hx
    exact hless k x h1 h2 hx
  · intro k x h1 h2 hx
    rw [getElem?_swap vec gt i k hgt hii, if_neg (by omega), if_neg (by omega)] at hx
    exact hsame k x h1 h2 hx
  · intro k x h1 h2 hx
    rw [getElem?_swap vec gt i k hgt hii] at hx
    split_ifs at hx with e1 e2
    · rwa [← at'_eq vec i x hx]
    · omega
    · exact hmore k x (by omega) h2 hx

/-- The same character: the entry stays. -/
theorem Parted.keep (inv : Parted p idx l h start vec lt i gt) (hi : i ≤ gt)
    (hc : charAt (at' vec i) idx = p) : Parted p idx l h start vec lt (i + 1) gt := by
  obtain ⟨hs, ⟨b1, b2, b3, b4⟩, hless, hsame, hmore⟩ := inv
  refine ⟨hs, by omega, hless, ?_, hmore⟩
  intro k x h1 h2 hx
  by_cases hk : k < i
  · exact hsame k x h1 hk hx
  · have hki : k = i := by omega
    subst hki
    rwa [← at'_eq vec k x hx]

/-- The loop ends with nothing left between the three parts. -/
theorem partitionLoop_spec (p : Int) (idx l h turns : Nat) (start vec : Array Bytes)
    (lt i gt : Nat) (inv : Parted p idx l h start vec lt i gt) (hsize : h < vec.size)
    (hturns : gt + 1 - i ≤ turns) :
    ∃ vec' lt' gt', partitionLoop p idx turns vec lt i gt = (vec', lt', gt') ∧
      Parted p idx l h start vec' lt' (gt' + 1) gt' := by
  induction turns generalizing vec lt i gt with
  | zero =>
    have hi : i = gt + 1 := by
      have := inv.bounds
      omega
    exact ⟨vec, lt, gt, rfl, hi ▸ inv⟩
  | succ turns ih =>
    have hb := inv.bounds
    simp only [partitionLoop]
    by_cases hi : i ≤ gt
    · simp only [hi, if_true]
      rcases Int.lt_trichotomy (charAt (at' vec i) idx) p with hc | hc | hc
      · simp only [hc, if_true]
        exact ih _ _ _ _ (inv.toLow hsize hi hc) (by simpa using hsize) (by omega)
      · have h1 : ¬ charAt (at' vec i) idx < p := by omega
        have h2 : ¬ charAt (at' vec i) idx > p := by omega
        simp only [h1, h2, if_false]
        exact ih _ _ _ _ (inv.keep hi hc) hsize (by omega)
      · have h1 : ¬ charAt (at' vec i) idx < p := by omega
        simp only [h1, if_false, gt_iff_lt, hc, if_true]
        exact ih _ _ _ _ (inv.toHigh hsize hi hc) (by simpa using hsize) (by omega)
    · have hi' : i = gt + 1 := by omega
      simp only [hi, if_false]
      exact ⟨vec, lt, gt, rfl, hi' ▸ inv⟩

/-! ## The sort -/

/-- What the sort needs of the whole vector, and no swap changes: distinct
words without a NUL, of at most `M` bytes. -/
structure Sortable (M : Nat) (vec : Array Bytes) : Prop where
  nodup : vec.toList.Nodup
  clean : ∀ w ∈ vec, ∀ b ∈ w, b ≠ 0
  short : ∀ w ∈ vec, w.length ≤ M

theorem Sortable.of_swaps {M l h : Nat} {a b : Array Bytes} (hs : Swaps l h a b)
    (ha : Sortable M a) : Sortable M b where
  nodup := (Array.perm_iff_toList_perm.1 hs.perm).nodup_iff.2 ha.nodup
  clean w hw := ha.clean w (hs.perm.mem_iff.1 hw)
  short w hw := ha.short w (hs.perm.mem_iff.1 hw)

/-- The words of the segment agree with `w` before `idx`. -/
def AgreeIn (l h idx : Nat) (w : Bytes) (vec : Array Bytes) : Prop :=
  ForallIn l h (fun x => ∀ m < idx, byteAt x m = byteAt w m) vec

/-- Two different words of a segment that agree before `idx` differ before their end. -/
theorem idx_lt_of_two {M l h idx : Nat} {w : Bytes} {vec : Array Bytes} (hv : Sortable M vec)
    (hlh : l < h) (hh : h < vec.size) (hag : AgreeIn l h idx w vec) : idx < M := by
  by_contra hge
  have hl := getElem?_at' vec l (by omega)
  have hhh := getElem?_at' vec h hh
  have hml : at' vec l ∈ vec := Array.mem_of_getElem? hl
  have hmh : at' vec h ∈ vec := Array.mem_of_getElem? hhh
  have heq : at' vec l = at' vec h := by
    apply eq_of_byteAt _ _ (hv.clean _ hml) (hv.clean _ hmh)
    intro k
    by_cases hk : k < idx
    · rw [hag l _ (Nat.le_refl _) (by omega) hl k hk, hag h _ (by omega) (Nat.le_refl _) hhh k hk]
    · have h1 := hv.short _ hml
      have h2 := hv.short _ hmh
      rw [byteAt_of_length_le _ k (by omega), byteAt_of_length_le _ k (by omega)]
  have hne := (List.nodup_iff_getElem?_ne_getElem?.1 hv.nodup) l h hlh (by simpa using hh)
  simp only [Array.getElem?_toList] at hne
  exact hne (by rw [hl, hhh, heq])

/-- What is before the words with the pivot's character, and what is after them. -/
def Lower (pivot : Bytes) (idx : Nat) (x : Bytes) : Prop :=
  (∀ m < idx, byteAt x m = byteAt pivot m) ∧ charAt x idx < charAt pivot idx

def Higher (pivot : Bytes) (idx : Nat) (x : Bytes) : Prop :=
  (∀ m < idx, byteAt x m = byteAt pivot m) ∧ charAt pivot idx < charAt x idx

section Parts

variable {pivot x y : Bytes} {idx : Nat}

theorem Lower.below_same (hx : Lower pivot idx x)
    (hy : ∀ m < idx + 1, byteAt y m = byteAt pivot m) : Below signedByte x y := by
  refine ⟨idx, fun m hm => by rw [hx.1 m hm, hy m (by omega)], ?_⟩
  rw [hy idx (by omega)]
  exact hx.2

theorem Lower.below_higher (hx : Lower pivot idx x) (hy : Higher pivot idx y) :
    Below signedByte x y :=
  ⟨idx, fun m hm => by rw [hx.1 m hm, hy.1 m hm], Int.lt_trans hx.2 hy.2⟩

theorem Higher.above_same (hy : Higher pivot idx y)
    (hx : ∀ m < idx + 1, byteAt x m = byteAt pivot m) : Below signedByte x y := by
  refine ⟨idx, fun m hm => by rw [hx m (by omega), hy.1 m hm], ?_⟩
  rw [hx idx (by omega)]
  exact hy.2

end Parts

/-- One partition, around the first word of the segment. -/
theorem partition_parts {l h idx : Nat} {w : Bytes} {vec : Array Bytes} (hlh : l < h)
    (hh : h < vec.size) (hag : AgreeIn l h idx w vec) :
    ∃ vec1 lt gt, partitionLoop (charAt (at' vec l) idx) idx (h - l) vec l (l + 1) h =
        (vec1, lt, gt) ∧
      Swaps l h vec vec1 ∧ l ≤ lt ∧ lt ≤ gt ∧ gt ≤ h ∧ AgreeIn l h idx (at' vec l) vec1 ∧
      (∀ k x, l ≤ k → k < lt → vec1[k]? = some x → Lower (at' vec l) idx x) ∧
      AgreeIn lt gt (idx + 1) (at' vec l) vec1 ∧
      ForallIn (gt + 1) h (Higher (at' vec l) idx) vec1 := by
  have hpivot := getElem?_at' vec l (by omega)
  generalize at' vec l = pivot at hpivot ⊢
  have hagp : AgreeIn l h idx pivot vec := by
    intro k x h1 h2 hx m hm
    rw [hag k x h1 h2 hx m hm, hag l pivot (Nat.le_refl _) (by omega) hpivot m hm]
  have inv0 : Parted (charAt pivot idx) idx l h vec vec l (l + 1) h := by
    refine ⟨Swaps.refl, by omega, fun k x h1 h2 => by omega, ?_, fun k x h1 h2 => by omega⟩
    intro k x h1 h2 hx
    have hk : k = l := by omega
    rw [hk, hpivot] at hx
    rw [Option.some.inj hx]
  obtain ⟨vec1, lt, gt, hpart, inv⟩ :=
    partitionLoop_spec _ idx l h (h - l) vec vec l (l + 1) h inv0 hh (by omega)
  obtain ⟨hs1, hb, hless, hsame, hmore⟩ := inv
  have hag1 : AgreeIn l h idx pivot vec1 := hs1.inside _ hagp
  refine ⟨vec1, lt, gt, hpart, hs1, hb.1, by omega, hb.2.2.2, hag1, ?_, ?_, ?_⟩
  · exact fun k x h1 h2 hx => ⟨hag1 k x h1 (by omega) hx, hless k x h1 h2 hx⟩
  · intro k x h1 h2 hx m hm
    by_cases hm' : m < idx
    · exact hag1 k x (by omega) (by omega) hx m hm'
    · have hmi : m = idx := by omega
      rw [hmi]
      exact signedByte_injective _ _ (hsame k x h1 (by omega) hx)
  · exact fun k x h1 h2 hx => ⟨hag1 k x (by omega) h2 hx, hmore k x (by omega) h2 hx⟩

/-- With this fuel, `radix_sort` ends on every segment that has fewer entries and characters left,
and its segment is in the order of `charAt`. -/
def SortsWith (M fuel : Nat) : Prop :=
  ∀ (l h idx : Nat) (w : Bytes) (vec : Array Bytes), Sortable M vec → h < vec.size →
    AgreeIn l h idx w vec → (h + 1 - l) + (M + 1 - idx) < fuel →
      ∃ out, radixSort fuel vec l h idx = some out ∧ Swaps l h vec out ∧
        SortedIn l h (Below signedByte) out

section Halves

variable {M fuel l h idx : Nat} {pivot : Bytes} {vec : Array Bytes}

/-- What `radix_sort` does before the words with the pivot's character. -/
theorem SortsWith.low {lt : Nat} (ih : SortsWith M fuel) (hv : Sortable M vec) (hlt : lt ≤ h)
    (hh : h < vec.size) (hag : AgreeIn l h idx pivot vec)
    (hless : ∀ k x, l ≤ k → k < lt → vec[k]? = some x → Lower pivot idx x)
    (hfuel : (h + 1 - l) + (M + 1 - idx) < fuel + 1) :
    ∃ out, (if lt > l then radixSort fuel vec l (lt - 1) idx else some vec) = some out ∧
      Swaps l (lt - 1) vec out ∧
      (∀ i j x y, l ≤ i → i < j → j < lt → out[i]? = some x → out[j]? = some y →
        Below signedByte x y) ∧
      ∀ k x, l ≤ k → k < lt → out[k]? = some x → Lower pivot idx x := by
  by_cases hempty : lt > l
  · obtain ⟨out, run, hs, hsort⟩ := ih l (lt - 1) idx pivot vec hv (by omega)
      (hag.mono (Nat.le_refl _) (by omega)) (by omega)
    have hin := hs.inside _ (fun k x h1 h2 hx => hless k x h1 (by omega) hx)
    refine ⟨out, by rw [if_pos hempty, run], hs, ?_, ?_⟩
    · exact fun i j x y h1 h2 h3 => hsort i j x y h1 h2 (by omega)
    · exact fun k x h1 h2 hx => hin k x h1 (by omega) hx
  · refine ⟨vec, if_neg hempty, Swaps.refl, ?_, hless⟩
    intro i j x y h1 h2 h3
    omega

/-- What `radix_sort` does after them. -/
theorem SortsWith.high {gt : Nat} (ih : SortsWith M fuel) (hv : Sortable M vec) (hl : l < gt + 1)
    (hh : h < vec.size) (hmore : ForallIn (gt + 1) h (Higher pivot idx) vec)
    (hfuel : (h + 1 - l) + (M + 1 - idx) < fuel + 1) :
    ∃ out, (if gt + 1 ≤ h then radixSort fuel vec (gt + 1) h idx else some vec) = some out ∧
      Swaps (gt + 1) h vec out ∧ SortedIn (gt + 1) h (Below signedByte) out := by
  by_cases hempty : gt + 1 ≤ h
  · obtain ⟨out, run, hs, hsort⟩ := ih (gt + 1) h idx pivot vec hv hh
      (fun k x h1 h2 hx => (hmore k x h1 h2 hx).1) (by omega)
    exact ⟨out, by rw [if_pos hempty, run], hs, hsort⟩
  · refine ⟨vec, if_neg hempty, Swaps.refl, ?_⟩
    intro i j x y h1 h2 h3
    omega

end Halves

/-- With fuel for the entries of the segment and for the characters left,
`radix_sort` ends, and its segment is in the order of `charAt`. -/
theorem radixSort_spec (M fuel l h idx : Nat) (w : Bytes) (vec : Array Bytes)
    (hv : Sortable M vec) (hh : h < vec.size) (hag : AgreeIn l h idx w vec)
    (hfuel : (h + 1 - l) + (M + 1 - idx) < fuel) :
    ∃ out, radixSort fuel vec l h idx = some out ∧ Swaps l h vec out ∧
      SortedIn l h (Below signedByte) out := by
  induction fuel generalizing l h idx w vec with
  | zero => omega
  | succ fuel ih =>
    have hsorts : SortsWith M fuel := ih
    simp only [radixSort]
    by_cases hle : h ≤ l
    · simp only [hle, if_true]
      refine ⟨vec, rfl, Swaps.refl, ?_⟩
      intro i j x y h1 h2 h3
      omega
    have hidx := idx_lt_of_two hv (by omega) hh hag
    simp only [hle, if_false]
    -- the pivot word stands for its whole part
    obtain ⟨vec1, lt, gt, hpart, hs1, hlow, hmid, hhigh, hag1, less1, same1, more1⟩ :=
      partition_parts (by omega) hh hag
    generalize at' vec l = pivot at hpart hag1 less1 same1 more1 ⊢
    rw [hpart]
    simp only []
    -- the low part
    obtain ⟨vec2, run2, hs2, sorted2, less2⟩ := hsorts.low (hv.of_swaps hs1) (by omega)
      (by have := hs1.size; omega) hag1 less1 hfuel
    have hs12 : Swaps l h vec vec2 := hs1.trans (hs2.mono (Nat.le_refl _) (by omega))
    have same2 : AgreeIn lt gt (idx + 1) pivot vec2 := by
      by_cases hlt : lt > l
      · exact hs2.apart same1 (Or.inl (by omega))
      · rw [if_neg hlt] at run2
        rwa [← Option.some.inj run2]
    have more2 := hs2.apart more1 (Or.inl (by omega))
    -- the middle part, by the next character
    obtain ⟨vec3, run3, hs3, sorted3⟩ := ih lt gt (idx + 1) pivot vec2 (hv.of_swaps hs12)
      (by have := hs12.size; omega) same2 (by omega)
    have hs13 : Swaps l h vec vec3 := hs12.trans (hs3.mono hlow hhigh)
    have same3 := hs3.inside _ same2
    have more3 := hs3.apart more2 (Or.inl (by omega))
    have less3 : ∀ k x, l ≤ k → k < lt → vec3[k]? = some x → Lower pivot idx x := by
      intro k x h1 h2 hx
      rw [hs3.outside k (Or.inl h2)] at hx
      exact less2 k x h1 h2 hx
    have sorted3' : ∀ i j x y, l ≤ i → i < j → j < lt → vec3[i]? = some x → vec3[j]? = some y →
        Below signedByte x y := by
      intro i j x y h1 h2 h3 hx hy
      rw [hs3.outside i (Or.inl (by omega))] at hx
      rw [hs3.outside j (Or.inl h3)] at hy
      exact sorted2 i j x y h1 h2 h3 hx hy
    -- the high part
    obtain ⟨vec4, run4, hs4, sorted4⟩ := hsorts.high (hv.of_swaps hs13) (by omega)
      (by have := hs13.size; omega) more3 hfuel
    refine ⟨vec4, ?_, hs13.trans (hs4.mono (by omega) (Nat.le_refl _)), ?_⟩
    · rw [run2]
      simp only [Option.bind_some, run3, run4]
    · have out4 := fun k (hk : k < gt + 1) => hs4.outside k (Or.inl hk)
      apply SortedIn.three (Below signedByte) lt gt (Lower pivot idx)
        (fun x => ∀ m < idx + 1, byteAt x m = byteAt pivot m) (Higher pivot idx)
      · intro i j x y h1 h2 h3 hx hy
        rw [out4 i (by omega)] at hx
        rw [out4 j (by omega)] at hy
        exact sorted3' i j x y h1 h2 h3 hx hy
      · exact hs4.sortedIn_apart sorted3 (Or.inr (by omega))
      · exact sorted4
      · intro k x h1 h2 hx
        rw [out4 k (by omega)] at hx
        exact less3 k x h1 h2 hx
      · exact hs4.apart same3 (Or.inr (by omega))
      · exact hs4.inside _ more3
      · exact fun x y hx hy => hx.below_same hy
      · exact fun x y hx hy => hx.below_higher hy
      · exact fun x y hx hy => hy.above_same hx

/-- More fuel does not change what the sort gives. -/
theorem radixSort_succ (fuel l h idx : Nat) (vec out : Array Bytes)
    (run : radixSort fuel vec l h idx = some out) : radixSort (fuel + 1) vec l h idx = some out := by
  induction fuel generalizing l h idx vec out with
  | zero => simp [radixSort] at run
  | succ fuel ih =>
    rw [radixSort] at run ⊢
    by_cases hle : h ≤ l
    · rwa [if_pos hle] at run ⊢
    rw [if_neg hle] at run ⊢
    generalize partitionLoop _ _ _ _ _ _ _ = parted at run ⊢
    obtain ⟨vec1, lt, gt⟩ := parted
    simp only [Option.bind_eq_some_iff] at run ⊢
    obtain ⟨vec2, run2, vec3, run3, run4⟩ := run
    refine ⟨vec2, ?_, vec3, ih _ _ _ _ _ run3, ?_⟩
    · split at run2
      · rename_i hlt
        rw [if_pos hlt, ih _ _ _ _ _ run2]
      · rename_i hlt
        rwa [if_neg hlt]
    · split at run4
      · rename_i hgt
        rw [if_pos hgt, ih _ _ _ _ _ run4]
      · rename_i hgt
        rwa [if_neg hgt]

theorem radixSort_mono (fuel more l h idx : Nat) (vec out : Array Bytes)
    (run : radixSort fuel vec l h idx = some out) :
    radixSort (fuel + more) vec l h idx = some out := by
  induction more with
  | zero => exact run
  | succ more ih => exact radixSort_succ _ _ _ _ _ _ ih

theorem sortEntries_mono (fuel more : Nat) (keys order : List Bytes)
    (run : sortEntries fuel keys = some order) : sortEntries (fuel + more) keys = some order := by
  unfold sortEntries radixSortAll at run ⊢
  by_cases hsize : (keys.filter hasSlot).toArray.size ≤ 1
  · rwa [if_pos hsize] at run ⊢
  · rw [if_neg hsize] at run ⊢
    obtain ⟨out, hout, rfl⟩ := Option.map_eq_some_iff.1 run
    rw [radixSort_mono _ more _ _ _ _ _ hout, Option.map_some]

/-- Two runs of `sort_entries` that end give the same order. -/
theorem sortEntries_unique (fuel fuel' : Nat) (keys order order' : List Bytes)
    (run : sortEntries fuel keys = some order) (run' : sortEntries fuel' keys = some order') :
    order = order' := by
  have h1 := sortEntries_mono fuel fuel' keys order run
  have h2 := sortEntries_mono fuel' fuel keys order' run'
  rw [Nat.add_comm, h1] at h2
  exact Option.some.inj h2

theorem exists_longest (words : List Bytes) : ∃ M, ∀ w ∈ words, w.length ≤ M := by
  induction words with
  | nil => exact ⟨0, fun w hw => absurd hw List.not_mem_nil⟩
  | cons w words ih =>
    obtain ⟨M, hM⟩ := ih
    refine ⟨max w.length M, fun v hv => ?_⟩
    rcases List.mem_cons.1 hv with rfl | hv
    · exact Nat.le_max_left _ _
    · exact Nat.le_trans (hM v hv) (Nat.le_max_right _ _)

/-- On distinct keys, `sort_entries` ends, and gives the keys that it keeps in
the order of `charAt`. -/
theorem sortEntries_spec (keys : List Bytes) (hnodup : keys.Nodup)
    (hclean : ∀ w ∈ keys, ∀ b ∈ w, b ≠ 0) :
    ∃ fuel order, sortEntries fuel keys = some order ∧ order.Perm (keys.filter hasSlot) ∧
      order.Pairwise (Below signedByte) := by
  obtain ⟨M, hM⟩ := exists_longest (keys.filter hasSlot)
  have hv : Sortable M (keys.filter hasSlot).toArray := by
    refine ⟨by simpa using hnodup.filter _, ?_, by simpa using hM⟩
    intro w hw
    exact hclean w (List.mem_filter.1 (by simpa using hw)).1
  unfold sortEntries radixSortAll
  generalize (keys.filter hasSlot) = kept at hv ⊢
  by_cases hsize : kept.toArray.size ≤ 1
  · refine ⟨0, kept, by simp only [hsize, if_true, Option.map_some], List.Perm.refl _, ?_⟩
    rw [List.size_toArray] at hsize
    match kept with
    | [] => exact List.Pairwise.nil
    | [w] => exact List.pairwise_singleton _ _
  · obtain ⟨out, run, hs, hsorted⟩ := radixSort_spec M (kept.toArray.size + M + 2) 0
      (kept.toArray.size - 1) 0 [] kept.toArray hv (by omega)
      (fun _ _ _ _ _ m hm => absurd hm (Nat.not_lt_zero m)) (by omega)
    refine ⟨kept.toArray.size + M + 2, out.toList, ?_, ?_, ?_⟩
    · rw [if_neg hsize, run, Option.map_some]
    · simpa using Array.perm_iff_toList_perm.1 hs.perm
    · rw [List.pairwise_iff_getElem]
      intro i j hi hj hij
      have hsz := hs.size
      rw [Array.length_toList] at hi hj
      apply hsorted i j _ _ (Nat.zero_le _) hij (by omega)
      · simp [hi]
      · simp [hj]

end seamus.sort
