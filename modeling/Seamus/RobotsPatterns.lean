-- The arguments of directives: what `UrlDecode` makes of a text, and the paths that
-- `Wildcard::Match` finds for a pattern.
import Seamus.RobotsPriority
import Mathlib.Data.List.Infix
import Mathlib.Data.List.TakeWhile

open seamus.url_store seamus.robots_txt seamus.robots_priority

namespace seamus.robots_patterns

/-! ## Wildcards -/

/-- The texts that come of a pattern when some bytes take the place of each `*`. -/
inductive Replaced : Bytes → Bytes → Prop
  | nil : Replaced [] []
  | byte {c : UInt8} {pattern text : Bytes} (hc : c ≠ star) (h : Replaced pattern text) :
    Replaced (c :: pattern) (c :: text)
  | star {pattern text : Bytes} (bytes : Bytes) (h : Replaced pattern text) :
    Replaced (star :: pattern) (bytes ++ text)

/-- The start of the path comes of the pattern, or all of it when the pattern ends in `$`. -/
def Matches (pattern path : Bytes) : Prop :=
  ∃ first rest, path = first ++ rest ∧ Replaced (withoutDollar pattern) first ∧
    (endsInDollar pattern = true → rest = [])

theorem glob_iff_replaced (pattern text : Bytes) : Glob pattern text ↔ Replaced pattern text := by
  constructor
  · intro h
    induction h with
    | nil => exact .nil
    | byte hc _ ih => exact .byte hc ih
    | stop _ ih => exact .star [] ih
    | more c _ ih =>
      cases ih with
      | byte hc _ => exact absurd rfl hc
      | star bytes h => exact .star (c :: bytes) h
  · intro h
    induction h with
    | nil => exact .nil
    | byte hc _ ih => exact .byte hc ih
    | star bytes _ ih => exact ih.any bytes

/-- The search of `Match` finds a path exactly when some replacement of the stars does. -/
theorem match_iff_replaced (pattern path : Bytes) :
    (Wildcard.scan pattern).matchPath path = true ↔ Matches pattern path := by
  obtain ⟨_, hends, hwildcard⟩ := scan_spec pattern
  unfold Wildcard.matchPath Matches
  rw [wildcardMatch_iff, hends, hwildcard]
  unfold Starts
  simp only [glob_iff_replaced]

/-! ## URL encoding -/

/-- `0123456789abcdef` -/
def hexDigits : Bytes := [48, 49, 50, 51, 52, 53, 54, 55, 56, 57, 97, 98, 99, 100, 101, 102]

/-- The byte that two hex digits of any case denote, unless it is a slash. -/
def denoted (a d : UInt8) : Option UInt8 :=
  match hexDigits.idxOf? (tolower a), hexDigits.idxOf? (tolower d) with
  | some i, some j =>
    if 16 * i + j = slash.toNat then none else some (UInt8.ofNat (16 * i + j))
  | _, _ => none

/-- Every `%` with two hex digits behind it is replaced, and every other byte stays. -/
def decoded : Bytes → Bytes
  | c :: a :: d :: rest =>
    if c = percent then
      match denoted a d with
      | some b => b :: decoded rest
      | none => c :: decoded (a :: d :: rest)
    else c :: decoded (a :: d :: rest)
  | short => short

theorem hexLiteralCharacter_eq (c : UInt8) :
    hexLiteralCharacter c = hexDigits.idxOf? (tolower c) := by
  have h : ∀ n < 256, hexLiteralCharacter (UInt8.ofNat n) =
      hexDigits.idxOf? (tolower (UInt8.ofNat n)) := by decide +kernel
  have hc := h c.toNat c.toNat_lt
  rwa [UInt8.ofNat_toNat] at hc

theorem hexByte_eq (a d : UInt8) : hexByte a d = denoted a d := by
  unfold hexByte denoted
  rw [hexLiteralCharacter_eq, hexLiteralCharacter_eq]
  cases hexDigits.idxOf? (tolower a) with
  | none => rfl
  | some i =>
    cases hexDigits.idxOf? (tolower d) with
    | none => rfl
    | some j => simp only [Nat.mul_comm i 16, ne_eq, ite_not]

theorem denoted_percent_left (d : UInt8) : denoted percent d = none := rfl

theorem denoted_percent_right (a : UInt8) : denoted a percent = none := by
  unfold denoted
  cases hexDigits.idxOf? (tolower a) with
  | none => rfl
  | some i => rfl

/-- The digits of an escape are no `%`. -/
theorem ne_percent_of_denoted {a d b : UInt8} (h : denoted a d = some b) :
    a ≠ percent ∧ d ≠ percent := by
  constructor
  · rintro rfl
    rw [denoted_percent_left] at h
    cases h
  · rintro rfl
    rw [denoted_percent_right] at h
    cases h

/-- Neither of the last two bytes is a `%`. -/
def NoCutEscape (path : Bytes) : Prop := ∀ b ∈ path.drop (path.length - 2), b ≠ percent

theorem noCutEscape_cons (c a d : UInt8) (rest : Bytes) :
    NoCutEscape (c :: a :: d :: rest) ↔ NoCutEscape (a :: d :: rest) := by
  unfold NoCutEscape
  rw [show (c :: a :: d :: rest).length - 2 = (a :: d :: rest).length - 2 + 1 from rfl,
    List.drop_succ_cons]

/-- What is behind an escape ends as the whole text does. -/
theorem noCutEscape_escape {a d b : UInt8} (h : denoted a d = some b) (rest : Bytes) :
    NoCutEscape (percent :: a :: d :: rest) ↔ NoCutEscape rest := by
  obtain ⟨ha, hd⟩ := ne_percent_of_denoted h
  rw [noCutEscape_cons]
  cases rest with
  | nil => simp [NoCutEscape, ha, hd]
  | cons x rest =>
    rw [noCutEscape_cons]
    cases rest with
    | nil => simp [NoCutEscape, hd]
    | cons y rest => exact noCutEscape_cons d x y rest

theorem decoded_cons {c : UInt8} (hc : c ≠ percent) (path : Bytes) :
    decoded (c :: path) = c :: decoded path := by
  match path with
  | [] => rfl
  | [_] => rfl
  | a :: d :: rest => rw [decoded, if_neg hc]

theorem noCutEscape_cons_ne {c : UInt8} (hc : c ≠ percent) (path : Bytes) :
    NoCutEscape (c :: path) ↔ NoCutEscape path := by
  match path with
  | [] => simp [NoCutEscape, hc]
  | [_] => simp [NoCutEscape, hc]
  | a :: d :: rest => exact noCutEscape_cons c a d rest

theorem urlDecode_cons {c : UInt8} (hc : c ≠ percent) (path : Bytes) :
    urlDecode (c :: path) = c :: urlDecode path := by
  rw [urlDecode.eq_def]
  exact if_neg hc

theorem urlDecode_short {path : Bytes} (h : ∀ a d rest, path = a :: d :: rest → False) :
    urlDecode (percent :: path) = [] := by
  match path with
  | [] => rfl
  | [_] => rfl
  | a :: d :: rest => exact absurd rfl (h a d rest)

/-- Only what a `%` at the end takes with it is dropped. -/
theorem urlDecode_start (path : Bytes) :
    urlDecode path <+: decoded path ∧ (urlDecode path = decoded path ↔ NoCutEscape path) := by
  induction path using urlDecode.induct with
  | case1 => exact ⟨List.prefix_refl _, by simp [NoCutEscape, urlDecode, decoded]⟩
  | case2 a d rest b hbyte ih =>
    rw [urlDecode, if_pos rfl, decoded, if_pos rfl, ← hexByte_eq]
    simp only [hbyte]
    rw [hexByte_eq] at hbyte
    rw [noCutEscape_escape hbyte, List.prefix_cons_inj, List.cons_inj_right]
    exact ih
  | case3 a d rest hbyte ih =>
    rw [urlDecode, if_pos rfl, decoded, if_pos rfl, ← hexByte_eq]
    simp only [hbyte]
    rw [noCutEscape_cons, List.prefix_cons_inj, List.cons_inj_right]
    exact ih
  | case4 path hshort =>
    have hcut : ¬NoCutEscape (percent :: path) := by
      match path with
      | [] => simp [NoCutEscape]
      | [_] => simp [NoCutEscape]
      | a :: d :: rest => exact absurd rfl (hshort a d rest)
    rw [urlDecode_short hshort]
    refine ⟨List.nil_prefix, iff_of_false ?_ hcut⟩
    match path with
    | [] => exact (List.cons_ne_nil _ _).symm
    | [_] => exact (List.cons_ne_nil _ _).symm
    | a :: d :: rest => exact absurd rfl (hshort a d rest)
  | case5 c path hc ih =>
    rw [urlDecode_cons hc, decoded_cons hc, noCutEscape_cons_ne hc, List.prefix_cons_inj,
      List.cons_inj_right]
    exact ih

/-! ### Encoded zero bytes -/

/-- `%00` -/
def encodedNul : Bytes := [percent, 48, 48]

theorem hexValue_spec {c : UInt8} {i : Nat} (h : hexDigits.idxOf? (tolower c) = some i) :
    i < 16 ∧ (i = 0 → c = 48) := by
  have hall : ∀ n < 256, (hexDigits.idxOf? (tolower (UInt8.ofNat n))).all
      (fun i => i < 16 && (i ≠ 0 || UInt8.ofNat n = 48)) = true := by decide +kernel
  have hc := hall c.toNat c.toNat_lt
  rw [UInt8.ofNat_toNat, h] at hc
  simpa [or_iff_not_imp_left] using hc

theorem denoted_zero_iff (a d : UInt8) : denoted a d = some 0 ↔ a = 48 ∧ d = 48 := by
  constructor
  · intro h
    unfold denoted at h
    split at h
    · rename_i i j hi hj
      obtain ⟨hi16, hi0⟩ := hexValue_spec hi
      obtain ⟨hj16, hj0⟩ := hexValue_spec hj
      split at h
      · cases h
      · have hzero := congrArg UInt8.toNat (Option.some.inj h)
        rw [UInt8.toNat_ofNat_of_lt' (show 16 * i + j < 256 by omega)] at hzero
        have hsum : 16 * i + j = 0 := hzero
        exact ⟨hi0 (by omega), hj0 (by omega)⟩
    · cases h
  · rintro ⟨rfl, rfl⟩
    rfl

theorem decoded_escape {a d b : UInt8} (h : denoted a d = some b) (rest : Bytes) :
    decoded (percent :: a :: d :: rest) = b :: decoded rest := by
  rw [decoded, if_pos rfl, h]

theorem decoded_plain {a d : UInt8} (h : denoted a d = none) (rest : Bytes) :
    decoded (percent :: a :: d :: rest) = percent :: decoded (a :: d :: rest) := by
  rw [decoded, if_pos rfl, h]

theorem encodedNul_cons {c : UInt8} {path : Bytes} (hc : ¬encodedNul <+: c :: path) :
    encodedNul <:+: c :: path ↔ encodedNul <:+: path := by
  rw [List.infix_cons_iff]
  exact or_iff_right hc

theorem encodedNul_starts {c : UInt8} {path : Bytes} (hc : c ≠ percent) :
    ¬encodedNul <+: c :: path :=
  fun h => hc (List.cons_prefix_cons.mp h).1.symm

theorem encodedNul_escape_iff (a d : UInt8) (rest : Bytes) :
    encodedNul <+: percent :: a :: d :: rest ↔ a = 48 ∧ d = 48 := by
  unfold encodedNul
  rw [List.prefix_cons_inj, List.cons_prefix_cons, List.cons_prefix_cons]
  exact ⟨fun h => ⟨h.1.symm, h.2.1.symm⟩, fun h => ⟨h.1.symm, h.2.symm, List.nil_prefix⟩⟩

/-- Zero bytes come of `%00` only. -/
theorem zero_mem_decoded_iff {path : Bytes} (h : 0 ∉ path) :
    0 ∈ decoded path ↔ encodedNul <:+: path := by
  induction path using urlDecode.induct with
  | case1 => simp [decoded, encodedNul]
  | case2 a d rest b hbyte ih =>
    rw [hexByte_eq] at hbyte
    obtain ⟨ha, hd⟩ := ne_percent_of_denoted hbyte
    have hrest : 0 ∉ rest := fun hmem => h (by simp [hmem])
    rw [decoded_escape hbyte, List.mem_cons, ih hrest, List.infix_cons_iff,
      encodedNul_escape_iff, ← denoted_zero_iff, hbyte, encodedNul_cons (encodedNul_starts ha),
      encodedNul_cons (encodedNul_starts hd), Option.some.injEq, eq_comm]
  | case3 a d rest hbyte ih =>
    rw [hexByte_eq] at hbyte
    have hrest : 0 ∉ a :: d :: rest := fun hmem => h (List.mem_cons_of_mem _ hmem)
    have hnot : ¬encodedNul <+: percent :: a :: d :: rest := by
      rw [encodedNul_escape_iff, ← denoted_zero_iff, hbyte]
      exact fun heq => by cases heq
    rw [decoded_plain hbyte, List.mem_cons, ih hrest, encodedNul_cons hnot]
    exact or_iff_right (by decide)
  | case4 path hshort =>
    have hlen : (percent :: path).length < encodedNul.length := by
      match path with
      | [] => decide
      | [_] => exact Nat.lt_succ_self _
      | a :: d :: rest => exact absurd rfl (hshort a d rest)
    have hself : decoded (percent :: path) = percent :: path := by
      match path with
      | [] => rfl
      | [_] => rfl
      | a :: d :: rest => exact absurd rfl (hshort a d rest)
    rw [hself]
    exact iff_of_false h fun hinfix => Nat.not_le_of_lt hlen hinfix.length_le
  | case5 c path hc ih =>
    obtain ⟨hzero, hpath⟩ := not_or.mp (mt List.mem_cons.mpr h)
    rw [decoded_cons hc, List.mem_cons, ih hpath, encodedNul_cons (encodedNul_starts hc)]
    exact or_iff_right hzero

theorem cString_eq_self_iff (str : Bytes) : cString str = str ↔ 0 ∉ str := by
  unfold cString
  rw [List.takeWhile_eq_self_iff]
  simp only [ne_eq, decide_not, Bool.not_eq_true', decide_eq_false_iff_not]
  exact ⟨fun h hmem => h 0 hmem rfl, fun h b hb heq => h (heq ▸ hb)⟩

/-- The bytes that `UrlDecode` writes are the decoded text exactly when neither of the last two
bytes is a `%`. The string that it returns ends at the first `%00` besides. -/
theorem urlDecode_keeps_every_byte_iff (str : Bytes) :
    (urlDecode (cString str) = decoded (cString str) ↔ NoCutEscape (cString str)) ∧
      (cString (urlDecode (cString str)) = decoded (cString str) ↔
        NoCutEscape (cString str) ∧ ¬encodedNul <:+: cString str) := by
  obtain ⟨hstart, hiff⟩ := urlDecode_start (cString str)
  have hnul : 0 ∉ cString str := by
    rw [← cString_eq_self_iff]
    exact List.takeWhile_idem
  refine ⟨hiff, ?_⟩
  rw [← hiff, ← zero_mem_decoded_iff hnul]
  constructor
  · intro heq
    have hle : (cString (urlDecode (cString str))).length ≤ (urlDecode (cString str)).length :=
      (List.takeWhile_prefix _).length_le
    have hall : urlDecode (cString str) = decoded (cString str) :=
      hstart.eq_of_length_le (by rw [← heq]; exact hle)
    exact ⟨hall, (cString_eq_self_iff _).mp (by rw [← hall] at heq ⊢ ; exact heq)⟩
  · rintro ⟨hall, hzero⟩
    rw [hall]
    exact (cString_eq_self_iff _).mpr hzero

/-- `/a%` loses its `%`. -/
theorem percent_at_the_end_is_lost :
    cString (urlDecode (cString [slash, 97, percent])) = [slash, 97] ∧
      ¬cString (urlDecode (cString [slash, 97, percent])) =
        decoded (cString [slash, 97, percent]) := by
  decide

end seamus.robots_patterns
