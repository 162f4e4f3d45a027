-- `SearchServer::read_request`: a request is read up to its first CR LF CR LF, however the reads
-- cut the stream, into a buffer that doubles up to 65536 bytes.
import Seamus.Basic
import Mathlib.Data.List.Infix

namespace seamus.htmlserver

/-! ## The source functions -/

/-- The byte `'\r'`. -/
def carriage : UInt8 := 13

/-- One turn of the matcher. -/
def matchByte (matched : Nat) (c : UInt8) : Nat :=
  if matched = 0 ∧ c = carriage then 1
  else if matched = 1 ∧ c = newline then 2
  else if matched = 2 ∧ c = carriage then 3
  else if matched = 3 ∧ c = newline then 4
  else if c = carriage then 1
  else 0

/-- The loop over the bytes of a read: `matched`, and by how much `total` grows. -/
def scan (matched : Nat) : Bytes → Nat × Nat
  | [] => (matched, 0)
  | c :: cs =>
    let matched := matchByte matched c
    if matched = 4 then (4, 1)
    else
      let (matched, n) := scan matched cs
      (matched, n + 1)

def maxCapacity : Nat := 1 <<< 16

/-- The capacity that the next read finds, none where the buffer may not grow. -/
def grow (total capacity : Nat) : Option Nat :=
  if total = capacity then
    let capacity := capacity * 2
    if capacity > maxCapacity then none else some capacity
  else some capacity

/-- The outer loop. `buf` is what `total` covers, `stream` what has not been read; the `k`-th
read that asks for `asked` bytes gets `cut k asked` of them, or all that are left. -/
def readLoop (cut : Nat → Nat → Nat) :
    Nat → (k capacity matched : Nat) → (buf stream : Bytes) → Option Bytes
  | 0, _, _, _, _, _ => none
  | turns + 1, k, capacity, matched, buf, stream =>
    if matched < 4 then
      match grow buf.length capacity with
      | none => some []
      | some capacity =>
        let n := min (cut k (capacity - buf.length)) stream.length
        if n = 0 then some []
        else
          let (matched, count) := scan matched (stream.take n)
          readLoop cut turns (k + 1) capacity matched (buf ++ (stream.take n).take count)
            (stream.drop n)
    else some buf

/-- With a turn for every byte, one for the end of the stream and one for the last test. -/
def readRequest (cut : Nat → Nat → Nat) (stream : Bytes) : Option Bytes :=
  readLoop cut (stream.length + 2) 0 4096 0 [] stream

/-! ## What the bytes say -/

def headerEnd : Bytes := [carriage, newline, carriage, newline]

/-- The shortest prefix that ends in CR LF CR LF. -/
def IsRequest (stream p : Bytes) : Prop :=
  p <+: stream ∧ headerEnd <:+ p ∧ ∀ q, q <+: stream → headerEnd <:+ q → p.length ≤ q.length

/-- The state of the matcher after some bytes: how much of CR LF CR LF they end in. -/
def stateOf (b : Bytes) : Nat :=
  if headerEnd <:+ b then 4
  else if [carriage, newline, carriage] <:+ b then 3
  else if [carriage, newline] <:+ b then 2
  else if [carriage] <:+ b then 1
  else 0

theorem suffix_snoc (t b : Bytes) (x c : UInt8) : t ++ [x] <:+ b ++ [c] ↔ t <:+ b ∧ c = x := by
  rw [List.suffix_append_inj_of_length_eq (show [x].length = [c].length from rfl),
    List.singleton_inj, eq_comm (a := x)]

/-- Bytes that end in CR do not end in CR LF. -/
theorem not_newline_of_carriage {b : Bytes} (h : [carriage] <:+ b) : ¬ [carriage, newline] <:+ b := by
  intro hnewline
  have hlast : [newline] <:+ b := List.IsSuffix.trans (by decide) hnewline
  exact absurd (List.suffix_of_suffix_length_le h hlast (Nat.le_refl 1)) (by decide)

theorem carriage_of_third {b : Bytes} (h : [carriage, newline, carriage] <:+ b) :
    [carriage] <:+ b := List.IsSuffix.trans (by decide) h

/-- As long as CR LF CR LF has not come, each turn of the matcher keeps its state. -/
theorem matchByte_stateOf (b : Bytes) (c : UInt8) (h : ¬ headerEnd <:+ b) :
    matchByte (stateOf b) c = stateOf (b ++ [c]) := by
  have h4 : headerEnd <:+ b ++ [c] ↔ [carriage, newline, carriage] <:+ b ∧ c = newline :=
    suffix_snoc [carriage, newline, carriage] b newline c
  have h3 : [carriage, newline, carriage] <:+ b ++ [c] ↔ [carriage, newline] <:+ b ∧ c = carriage :=
    suffix_snoc [carriage, newline] b carriage c
  have h2 : [carriage, newline] <:+ b ++ [c] ↔ [carriage] <:+ b ∧ c = newline :=
    suffix_snoc [carriage] b newline c
  have h1 : [carriage] <:+ b ++ [c] ↔ c = carriage := by
    simpa using suffix_snoc [] b carriage c
  have hone := not_newline_of_carriage (b := b)
  have hthird := carriage_of_third (b := b)
  have hne : carriage ≠ newline := by decide
  simp only [stateOf, h4, h3, h2, h1, if_neg h]
  by_cases hc : c = carriage
  · subst hc
    by_cases p2 : [carriage, newline] <:+ b
    · have p1 : ¬ [carriage] <:+ b := fun p1 => hone p1 p2
      have p3 : ¬ [carriage, newline, carriage] <:+ b := fun p3 => p1 (hthird p3)
      simp [matchByte, p2, p3, hne]
    · by_cases p3 : [carriage, newline, carriage] <:+ b
      · simp [matchByte, p2, p3, hne]
      · by_cases p1 : [carriage] <:+ b
        · simp [matchByte, p1, p2, p3, hne]
        · simp [matchByte, p1, p2, p3]
  · by_cases hn : c = newline
    · subst hn
      by_cases p3 : [carriage, newline, carriage] <:+ b
      · simp [matchByte, p3, hne.symm]
      · by_cases p1 : [carriage] <:+ b
        · simp [matchByte, p1, hone p1, p3, hne.symm]
        · by_cases p2 : [carriage, newline] <:+ b
          · simp [matchByte, p1, p2, p3, hne.symm]
          · simp [matchByte, p1, p2, p3, hne.symm]
    · simp [matchByte, hc, hn]

/-! ## The loops -/

/-- CR LF CR LF has not come yet. -/
def Clean (b : Bytes) : Prop := ∀ q, q <+: b → ¬ headerEnd <:+ q

theorem Clean.self {b : Bytes} (h : Clean b) : ¬ headerEnd <:+ b := h b (List.prefix_refl b)

theorem stateOf_lt {b : Bytes} (h : Clean b) : stateOf b < 4 := by
  unfold stateOf
  rw [if_neg h.self]
  split_ifs <;> decide

theorem stateOf_snoc_iff {b : Bytes} : stateOf b = 4 ↔ headerEnd <:+ b := by
  unfold stateOf
  split_ifs with h <;> simp [h]

theorem Clean.snoc {b : Bytes} {c : UInt8} (h : Clean b) (hc : ¬ headerEnd <:+ b ++ [c]) :
    Clean (b ++ [c]) := by
  intro q hq
  rcases List.prefix_concat_iff.mp hq with rfl | hq
  · exact hc
  · exact h q hq

/-- Where it comes for the first time. -/
def First (p : Bytes) : Prop := headerEnd <:+ p ∧ ∀ q, q <+: p → headerEnd <:+ q → q = p

theorem Clean.first {b : Bytes} {c : UInt8} (h : Clean b) (hc : headerEnd <:+ b ++ [c]) :
    First (b ++ [c]) := by
  refine ⟨hc, fun q hq hend => ?_⟩
  rcases List.prefix_concat_iff.mp hq with rfl | hq
  · rfl
  · exact absurd hend (h q hq)

/-- The bytes of a read: the matcher stops after the first CR LF CR LF, or takes them all. -/
theorem scan_spec (chunk : Bytes) {b : Bytes} (h : Clean b) :
    (scan (stateOf b) chunk).1 = 4 ∧ First (b ++ chunk.take (scan (stateOf b) chunk).2) ∨
      scan (stateOf b) chunk = (stateOf (b ++ chunk), chunk.length) ∧ Clean (b ++ chunk) := by
  induction chunk generalizing b with
  | nil => exact Or.inr ⟨by rw [scan, List.append_nil]; rfl, by rwa [List.append_nil]⟩
  | cons c chunk ih =>
    rw [scan, matchByte_stateOf b c h.self]
    simp only
    by_cases hend : headerEnd <:+ b ++ [c]
    · rw [if_pos (stateOf_snoc_iff.mpr hend)]
      exact Or.inl ⟨rfl, by simpa using h.first hend⟩
    · rw [if_neg (mt stateOf_snoc_iff.mp hend)]
      have hassoc : b ++ c :: chunk = b ++ [c] ++ chunk := by simp
      rcases ih (h.snoc hend) with ⟨hfour, hfirst⟩ | ⟨hscan, hclean⟩
      · exact Or.inl ⟨hfour, by simpa using hfirst⟩
      · rw [hscan, hassoc]
        exact Or.inr ⟨rfl, hclean⟩

/-- What is to be returned for a stream. -/
def Returns (stream out : Bytes) : Prop :=
  (IsRequest stream out ∧ out.length ≤ maxCapacity) ∨
    (out = [] ∧ ∀ p, IsRequest stream p → maxCapacity < p.length)

theorem First.returns {p rest : Bytes} (h : First p) (hlen : p.length ≤ maxCapacity) :
    Returns (p ++ rest) p := by
  refine Or.inl ⟨⟨List.prefix_append p rest, h.1, fun q hq hend => ?_⟩, hlen⟩
  by_contra hlt
  have hle : q.length ≤ p.length := Nat.le_of_lt (Nat.lt_of_not_le hlt)
  have hqp := List.prefix_of_prefix_length_le hq (List.prefix_append p rest) hle
  rw [h.2 q hqp hend] at hlt
  exact hlt (Nat.le_refl _)

/-- Without CR LF CR LF in the first 65536 bytes, or in the whole stream, nothing is returned. -/
theorem Clean.returns {b rest : Bytes} (h : Clean b) (hlen : maxCapacity ≤ b.length ∨ rest = []) :
    Returns (b ++ rest) [] := by
  refine Or.inr ⟨rfl, fun p hp => ?_⟩
  by_contra hle
  have hpb : p <+: b := by
    rcases hlen with hlen | rfl
    · exact List.prefix_of_prefix_length_le hp.1 (List.prefix_append b rest) (by omega)
    · simpa using hp.1
  exact h p hpb hp.2.1

/-- Before a read there is room, as long as the buffer may grow. -/
theorem grow_spec {total j : Nat} (hj : j ≤ 4) (hlen : total ≤ 4096 * 2 ^ j) :
    (grow total (4096 * 2 ^ j) = none ∧ maxCapacity ≤ total) ∨
      ∃ j' ≤ 4, grow total (4096 * 2 ^ j) = some (4096 * 2 ^ j') ∧ total < 4096 * 2 ^ j' := by
  unfold grow
  by_cases hfull : total = 4096 * 2 ^ j
  · subst hfull
    rw [if_pos rfl]
    by_cases hlast : j = 4
    · subst hlast
      exact Or.inl ⟨by decide, by decide⟩
    · have hle : 4096 * 2 ^ (j + 1) ≤ maxCapacity :=
        Nat.mul_le_mul_left 4096 (Nat.pow_le_pow_right (by decide) (show j + 1 ≤ 4 by omega))
      have hdouble : 4096 * 2 ^ j * 2 = 4096 * 2 ^ (j + 1) := by rw [Nat.mul_assoc, ← Nat.pow_succ]
      refine Or.inr ⟨j + 1, by omega, ?_, ?_⟩
      · rw [hdouble]
        exact if_neg (Nat.not_lt_of_le hle)
      · have hpos := Nat.two_pow_pos j
        omega
  · rw [if_neg hfull]
    exact Or.inr ⟨j, hj, rfl, Nat.lt_of_le_of_ne hlen hfull⟩

theorem capacity_le {j : Nat} (hj : j ≤ 4) : 4096 * 2 ^ j ≤ maxCapacity :=
  Nat.mul_le_mul_left 4096 (Nat.pow_le_pow_right (by decide) hj)

theorem readLoop_returns {cut : Nat → Nat → Nat}
    (hcut : ∀ k asked, 0 < asked → 0 < cut k asked ∧ cut k asked ≤ asked) (turns : Nat) {k j : Nat}
    {buf stream : Bytes} (hclean : Clean buf) (hj : j ≤ 4) (hlen : buf.length ≤ 4096 * 2 ^ j)
    (hturns : stream.length + 2 ≤ turns) :
    ∃ out, readLoop cut turns k (4096 * 2 ^ j) (stateOf buf) buf stream = some out ∧
      Returns (buf ++ stream) out := by
  induction turns generalizing k j buf stream with
  | zero => omega
  | succ turns ih =>
    rw [readLoop, if_pos (stateOf_lt hclean)]
    obtain ⟨hnone, hmax⟩ | ⟨j', hj', hsome, hroom⟩ := grow_spec hj hlen
    · rw [hnone]
      exact ⟨[], rfl, hclean.returns (Or.inl hmax)⟩
    · rw [hsome]
      simp only
      obtain ⟨hpos, hasked⟩ := hcut k (4096 * 2 ^ j' - buf.length) (Nat.sub_pos_of_lt hroom)
      generalize hn : min (cut k (4096 * 2 ^ j' - buf.length)) stream.length = n
      by_cases hzero : n = 0
      · -- a positive read of nothing: the stream has ended
        rw [if_pos hzero]
        have hend : stream = [] := List.eq_nil_of_length_eq_zero (by omega)
        exact ⟨[], rfl, hclean.returns (Or.inr hend)⟩
      rw [if_neg hzero]
      have htake : (stream.take n).length = n := by
        rw [List.length_take]
        omega
      have hcapacity := capacity_le hj'
      rcases scan_spec (stream.take n) hclean with ⟨hfour, hfirst⟩ | ⟨hscan, hclean'⟩
      · obtain ⟨turns, rfl⟩ := Nat.exists_eq_add_one.mpr (show 0 < turns by omega)
        rw [hfour, readLoop, if_neg (by decide)]
        refine ⟨_, rfl, ?_⟩
        generalize (scan (stateOf buf) (stream.take n)).2 = count at *
        have hwhole : buf ++ stream =
            buf ++ (stream.take n).take count ++ ((stream.take n).drop count ++ stream.drop n) := by
          rw [List.append_assoc buf, ← List.append_assoc (List.take count _),
            List.take_append_drop, List.take_append_drop]
        rw [hwhole]
        refine hfirst.returns ?_
        rw [List.length_append, List.length_take, htake]
        omega
      · have hwhole : buf ++ stream = buf ++ stream.take n ++ stream.drop n := by simp
        have hlen' : (buf ++ stream.take n).length ≤ 4096 * 2 ^ j' := by
          rw [List.length_append, htake]
          omega
        have hrest : (stream.drop n).length + 2 ≤ turns := by
          rw [List.length_drop]
          omega
        obtain ⟨out, hloop, hreturns⟩ := ih (k := k + 1) hclean' hj' hlen' hrest
        rw [hscan, hwhole]
        simp only [List.take_length]
        exact ⟨out, hloop, hreturns⟩

/-- Whatever the reads cut off, the request ends with the first CR LF CR LF, if that comes in time. -/
theorem request_is_first_header (cut : Nat → Nat → Nat)
    (hcut : ∀ k asked, 0 < asked → 0 < cut k asked ∧ cut k asked ≤ asked) (stream : Bytes) :
    (∀ p, IsRequest stream p → p.length ≤ 65536 → readRequest cut stream = some p) ∧
      ((¬ ∃ p, IsRequest stream p ∧ p.length ≤ 65536) → readRequest cut stream = some []) := by
  have hclean : Clean [] := fun q hq hend => by
    rw [List.prefix_nil.mp hq] at hend
    exact absurd hend (by decide)
  obtain ⟨out, hloop, hreturns⟩ := readLoop_returns hcut (stream.length + 2) (k := 0) (j := 0)
    hclean (by decide) (Nat.zero_le _) (show stream.length + 2 ≤ stream.length + 2 from Nat.le_refl _)
  have hrun : readRequest cut stream = some out := hloop
  rw [hrun]
  rw [List.nil_append] at hreturns
  constructor
  · intro p hp hshort
    rcases hreturns with ⟨hout, _⟩ | ⟨_, hlong⟩
    · have hlen := Nat.le_antisymm (hout.2.2 p hp.1 hp.2.1) (hp.2.2 out hout.1 hout.2.1)
      have hprefix := List.prefix_of_prefix_length_le hout.1 hp.1 (Nat.le_of_eq hlen)
      rw [List.IsPrefix.eq_of_length hprefix hlen]
    · exact absurd hshort (Nat.not_le_of_lt (hlong p hp))
  · intro hnone
    rcases hreturns with ⟨hout, hshort⟩ | ⟨hnil, _⟩
    · exact absurd ⟨out, hout, hshort⟩ hnone
    · rw [hnil]

/-- Reads of one byte: of a request with a CR before its end and a byte after it, and of a stream
that ends too soon. -/
theorem byte_by_byte_request :
    readRequest (fun _ _ => 1) [71, 13, 13, 10, 13, 10, 66] = some [71, 13, 13, 10, 13, 10] ∧
      readRequest (fun _ _ => 1) [71, 13, 10, 13] = some [] := by
  have hcut : ∀ k asked : Nat, 0 < asked → 0 < 1 ∧ 1 ≤ asked := fun _ _ h => ⟨Nat.one_pos, h⟩
  constructor
  · have hleast : ∀ q ∈ [71, 13, 13, 10, 13, 10, 66].inits, headerEnd <:+ q → 6 ≤ q.length := by
      decide
    have hrequest : IsRequest [71, 13, 13, 10, 13, 10, 66] [71, 13, 13, 10, 13, 10] :=
      ⟨by decide, by decide, fun q hq => hleast q ((List.mem_inits q _).mpr hq)⟩
    exact (request_is_first_header (fun _ _ => 1) hcut _).1 _ hrequest (by decide)
  · have hnone : ∀ q ∈ [71, 13, 10, 13].inits, ¬ headerEnd <:+ q := by decide
    refine (request_is_first_header (fun _ _ => 1) hcut _).2 ?_
    rintro ⟨p, hp, _⟩
    exact hnone p ((List.mem_inits p _).mpr hp.1) hp.2.1

end seamus.htmlserver
