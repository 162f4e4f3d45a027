-- One page, one URL: what `normalize_url` makes of the parts of a URL, which variants of a URL it
-- takes for one, and which of its results it would change again.
import Seamus.UrlFilter
import Mathlib.Data.List.TakeWhile
import Mathlib.Data.List.Infix

open seamus.html_tags seamus.html seamus.url_filter

namespace seamus.url_identity

/-! ## The case of a letter -/

/-- A character that is no letter. -/
def isSign (k : UInt8) : Bool := k < 65 || (90 < k && k < 97) || 122 < k

theorem tolower_eq_iff {c k : UInt8} (h : isSign k = true) : tolower c = k ↔ c = k := by
  unfold tolower
  split
  · rename_i hc
    have hsum : (c + 32).toNat = (c.toNat + 32) % 256 := UInt8.toNat_add c 32
    simp [isSign, UInt8.lt_iff_toNat_lt] at h
    simp [UInt8.le_iff_toNat_le] at hc
    rw [← UInt8.toNat_inj, ← UInt8.toNat_inj, hsum]
    omega
  · exact Iff.rfl

theorem isAllowedUrlChar_tolower (c : UInt8) :
    isAllowedUrlChar (tolower c) = isAllowedUrlChar c := by
  have hall : ∀ n < 256, isAllowedUrlChar (tolower (UInt8.ofNat n)) =
      isAllowedUrlChar (UInt8.ofNat n) := by
    decide +kernel
  have hc := hall c.toNat c.toNat_lt
  rwa [UInt8.ofNat_toNat] at hc

variable {s t : Bytes} {k : UInt8}

theorem lowercase_length (s : Bytes) : (lowercase s).length = s.length := List.length_map _

theorem lowercase_take (n : Nat) (s : Bytes) : lowercase (s.take n) = (lowercase s).take n :=
  List.map_take

theorem lowercase_drop (n : Nat) (s : Bytes) : lowercase (s.drop n) = (lowercase s).drop n :=
  List.map_drop

theorem lowercase_eq_nil : lowercase s = [] ↔ s = [] := List.map_eq_nil_iff

/-- A sign stands where it stood. -/
theorem mem_lowercase (h : isSign k = true) : k ∈ lowercase s ↔ k ∈ s := by
  rw [lowercase, List.mem_map]
  constructor
  · rintro ⟨c, hc, heq⟩
    exact (tolower_eq_iff h).mp heq ▸ hc
  · intro hk
    exact ⟨k, hk, (tolower_eq_iff h).mpr rfl⟩

theorem takeWhile_lowercase (h : isSign k = true) (s : Bytes) :
    (lowercase s).takeWhile (· ≠ k) = lowercase (s.takeWhile (· ≠ k)) := by
  have hsame : ∀ c : UInt8, decide (tolower c ≠ k) = decide (c ≠ k) :=
    fun c => decide_eq_decide.mpr (not_congr (tolower_eq_iff h))
  rw [lowercase, List.takeWhile_map, lowercase]
  congr 2
  exact funext hsame

theorem getD_lowercase (h : isSign k = true) (s : Bytes) (i : Nat) :
    (lowercase s).getD i 0 = k ↔ s.getD i 0 = k := by
  rw [List.getD_eq_getElem?_getD, List.getD_eq_getElem?_getD, lowercase, List.getElem?_map]
  cases s[i]? with
  | none => exact Iff.rfl
  | some c => exact tolower_eq_iff h

/-- A text without letters has one case only. -/
theorem eq_of_lowercase_eq (ht : ∀ c ∈ t, isSign c = true) (h : lowercase s = t) : s = t := by
  subst h
  induction s with
  | nil => rfl
  | cons c s ih =>
    rw [lowercase, List.map_cons] at ht ⊢
    obtain ⟨hc, hs⟩ := List.forall_mem_cons.mp ht
    rw [← lowercase, ← ih hs, ← (tolower_eq_iff hc).mp rfl]

/-! ## The filters do not see the case -/

theorem hasAllowedTld_lowercase (host : Bytes) :
    hasAllowedTld (lowercase host) = hasAllowedTld host := by
  have hreverse : (lowercase host).reverse = lowercase host.reverse := List.map_reverse.symm
  have htld : ((lowercase host).reverse.takeWhile (· ≠ 46)).reverse =
      lowercase (host.reverse.takeWhile (· ≠ 46)).reverse := by
    rw [hreverse, takeWhile_lowercase rfl]
    exact List.map_reverse.symm
  unfold hasAllowedTld
  simp only [htld, lowercase_lowercase, mem_lowercase (k := 46) rfl, ne_eq, lowercase_eq_nil]

theorem isBlockedDomain_lowercase (host : Bytes) :
    isBlockedDomain (lowercase host) = isBlockedDomain host := by
  unfold isBlockedDomain
  simp only [lowercase_length, ← lowercase_drop, lowercase_lowercase,
    getD_lowercase (k := 46) rfl]

theorem isNonEnglishCode_lowercase (s : Bytes) :
    isNonEnglishCode (lowercase s) = isNonEnglishCode s := by
  unfold isNonEnglishCode
  rw [← lowercase_take, lowercase_lowercase]

theorem hasNonEnglishCode_lowercase (host path : Bytes) :
    hasNonEnglishCode (lowercase host) path = hasNonEnglishCode host path := by
  unfold hasNonEnglishCode
  simp only [lowercase_length, isNonEnglishCode_lowercase, getD_lowercase (k := 46) rfl]

theorem labelHasLongNonvowelRun_lowercase (run : Nat) (label : Bytes) :
    labelHasLongNonvowelRun run (lowercase label) = labelHasLongNonvowelRun run label := by
  induction label generalizing run with
  | nil => rfl
  | cons c label ih =>
    have hvowel : isVowel (tolower c) = isVowel c := by rw [isVowel, tolower_tolower, isVowel]
    rw [lowercase, List.map_cons, ← lowercase, labelHasLongNonvowelRun, labelHasLongNonvowelRun,
      hvowel, ih, ih]

theorem splitOn_lowercase (h : isSign k = true) (s : Bytes) :
    (lowercase s).splitOn k = (s.splitOn k).map lowercase := by
  induction s with
  | nil => rfl
  | cons c s ih =>
    have hsame : (tolower c == k) = (c == k) := by
      rw [Bool.eq_iff_iff, beq_iff_eq, beq_iff_eq, tolower_eq_iff h]
    rw [lowercase, List.map_cons, ← lowercase, List.splitOn_cons_eq_if_modifyHead,
      List.splitOn_cons_eq_if_modifyHead, hsame, ih]
    split
    · rfl
    · cases s.splitOn k <;> rfl

theorem hasGibberishHost_lowercase (host : Bytes) :
    hasGibberishHost (lowercase host) = hasGibberishHost host := by
  unfold hasGibberishHost
  rw [splitOn_lowercase rfl, List.any_map]
  congr 1
  exact funext fun label => labelHasLongNonvowelRun_lowercase 0 label

/-! ## The parts of a URL -/

def scheme (isHttps : Bool) : Bytes := if isHttps then ascii "https://" else ascii "http://"

/-- The default port of the scheme. -/
def defaultPort (isHttps : Bool) : Bytes := if isHttps then ascii "443" else ascii "80"

/-- `c == '/' || c == '?' || c == '#'`. -/
def endsHost (c : UInt8) : Bool := c = 47 || c = 63 || c = 35

/-- What is before the fragment: nothing, or a path or a query. -/
structure Visible (visible : Bytes) : Prop where
  start : visible = [] ∨ ∃ c rest, visible = c :: rest ∧ (c = 47 ∨ c = 63)
  noHash : 35 ∉ visible

def Fragment (fragment : Bytes) : Prop := fragment = [] ∨ ∃ rest, fragment = 35 :: rest

/-- A URL with its host, what is visible of it behind the host, and its fragment. -/
structure Parts (isHttps : Bool) (host visible fragment url : Bytes) : Prop where
  text : url = scheme isHttps ++ (host ++ (visible ++ fragment))
  host : ∀ c ∈ host, endsHost c = false
  visible : Visible visible
  fragment : Fragment fragment

/-- What the filters accept of a host and a path. -/
structure Accepted (isHttps : Bool) (host path : Bytes) : Prop where
  host_ne : host ≠ []
  extension : hasBadExtension path = false
  noQuery : 63 ∉ path
  chars : hostPathHasOnlyAllowedChars (host ++ path) = true
  tld : hasAllowedTld (stripPort isHttps host) = true
  blocked : isBlockedDomain (stripPort isHttps host) = false
  language : hasNonEnglishCode (stripPort isHttps host) path = false
  gibberish : hasGibberishHost (stripPort isHttps host) = false
  junk : hasJunkPath path = false
  depth : exceedsPathDepth path = false

/-- The one form of an accepted URL. -/
def canonical (isHttps : Bool) (host path : Bytes) : Bytes :=
  scheme isHttps ++ lowercase (stripPort isHttps host) ++ fixPath path

/-- The checks behind the first ones, as `normalizeUrl` makes them. -/
def judge (isHttps : Bool) (host visible : Bytes) : Bytes :=
  let path := visible.takeWhile (· ≠ 63)
  let content := stripPort isHttps host
  if host = [] then []
  else if hasBadExtension path then []
  else if path.length < visible.length then []
  else if !hostPathHasOnlyAllowedChars (host ++ path) then []
  else if !hasAllowedTld content then []
  else if isBlockedDomain content then []
  else if hasNonEnglishCode content path then []
  else if hasGibberishHost content then []
  else if hasJunkPath path then []
  else if exceedsPathDepth path then []
  else scheme isHttps ++ lowercase content ++ fixPath path

variable {isHttps : Bool} {host visible fragment url path : Bytes}

theorem judge_of_accepted (h : Accepted isHttps host path) :
    judge isHttps host path = canonical isHttps host path := by
  have hpath : path.takeWhile (· ≠ 63) = path :=
    List.takeWhile_eq_self_iff.mpr fun c hc => decide_eq_true fun heq => h.noQuery (heq ▸ hc)
  unfold judge
  simp only [hpath, if_neg h.host_ne, h.extension, Nat.lt_irrefl, h.chars, h.tld, h.blocked,
    h.language, h.gibberish, h.junk, h.depth]
  rfl

/-- What comes of a check that was passed. -/
theorem passed {c : Prop} [Decidable c] {x : Bytes} (h : (if c then [] else x) ≠ []) :
    ¬c ∧ x ≠ [] := by
  split at h
  · exact absurd rfl h
  · rename_i hc
    exact ⟨hc, h⟩

theorem accepted_of_judge (h : judge isHttps host path ≠ []) : Accepted isHttps host path := by
  unfold judge at h
  obtain ⟨hhost, h⟩ := passed h
  obtain ⟨hextension, h⟩ := passed h
  obtain ⟨hquery, h⟩ := passed h
  have hpath : path.takeWhile (· ≠ 63) = path :=
    (List.takeWhile_prefix _).eq_of_length_le (Nat.le_of_not_lt hquery)
  rw [hpath] at hextension h
  obtain ⟨hchars, h⟩ := passed h
  obtain ⟨htld, h⟩ := passed h
  obtain ⟨hblocked, h⟩ := passed h
  obtain ⟨hlanguage, h⟩ := passed h
  obtain ⟨hgibberish, h⟩ := passed h
  obtain ⟨hjunk, h⟩ := passed h
  obtain ⟨hdepth, -⟩ := passed h
  rw [Bool.not_eq_true, Bool.not_eq_false'] at hchars htld
  have hnoQuery : 63 ∉ path := by
    intro hmem
    exact of_decide_eq_true (List.takeWhile_eq_self_iff.mp hpath 63 hmem) rfl
  exact ⟨hhost, Bool.eq_false_iff.mpr hextension, hnoQuery, hchars, htld,
    Bool.eq_false_iff.mpr hblocked, Bool.eq_false_iff.mpr hlanguage,
    Bool.eq_false_iff.mpr hgibberish, Bool.eq_false_iff.mpr hjunk, Bool.eq_false_iff.mpr hdepth⟩

/-! ## The parts are found -/

theorem splitScheme_scheme (isHttps : Bool) (p : Bytes) :
    splitScheme (scheme isHttps ++ p) = some (isHttps, p) := by
  cases isHttps <;> rfl

/-- What follows a host: nothing, or a character that ends it. -/
def AfterHost (rest : Bytes) : Prop := rest = [] ∨ ∃ c tail, rest = c :: tail ∧ endsHost c = true

theorem endsHost_sign {c : UInt8} (h : endsHost c = true) : isSign c = true ∧ c ≠ 46 := by
  simp only [endsHost, Bool.or_eq_true, decide_eq_true_eq] at h
  rcases h with (rfl | rfl) | rfl <;> decide

theorem AfterHost.sign {rest : Bytes} (h : AfterHost rest) :
    ∀ c ∈ rest.head?, isSign c = true ∧ c ≠ 46 := by
  intro c hc
  rcases h with rfl | ⟨d, tail, rfl, hd⟩
  · exact absurd hc (Option.not_mem_none c)
  · rw [← Option.some.inj hc]
    exact endsHost_sign hd

theorem takeWhile_host (hhost : ∀ c ∈ host, endsHost c = false) {rest : Bytes}
    (hrest : AfterHost rest) :
    (host ++ rest).takeWhile (fun c => c ≠ 47 && c ≠ 63 && c ≠ 35) = host := by
  have hsame : (fun c : UInt8 => decide (c ≠ 47) && decide (c ≠ 63) && decide (c ≠ 35)) =
      fun c => !endsHost c := by
    funext c
    simp [endsHost]
  rw [hsame, List.takeWhile_append_of_pos fun c hc => by rw [hhost c hc]; rfl]
  rcases hrest with rfl | ⟨c, tail, rfl, hc⟩
  · exact List.append_nil host
  · rw [List.takeWhile_cons_of_neg (by rw [hc]; decide), List.append_nil]

/-- A `www.` does not reach beyond the host. -/
theorem stripWww_append {rest : Bytes} (hrest : ∀ c ∈ rest.head?, isSign c = true ∧ c ≠ 46) :
    stripWww (host ++ rest) = stripWww host ++ rest := by
  cases rest with
  | nil => rw [List.append_nil, List.append_nil]
  | cons c tail =>
    rcases Nat.lt_or_ge host.length 4 with hshort | hlong
    · -- the end of the host is among the first four characters
      have hnot : lowercase ((host ++ c :: tail).take 4) ≠ ascii "www." := by
        intro heq
        have hmem : c ∈ (host ++ c :: tail).take 4 := by
          rw [List.take_append]
          apply List.mem_append_right
          rw [show 4 - host.length = (3 - host.length) + 1 from by omega, List.take_succ_cons]
          exact List.mem_cons_self
        obtain ⟨hsign, hdot⟩ := hrest c rfl
        have hwww : c ∈ ascii "www." := heq ▸ (mem_lowercase hsign).mpr hmem
        have hsigns : ∀ k ∈ ascii "www.", isSign k = true → k = 46 := by decide +kernel
        exact hdot (hsigns c hwww hsign)
      have hnot' : lowercase (host.take 4) ≠ ascii "www." := by
        intro heq
        have hlen := congrArg List.length heq
        rw [lowercase_length, List.length_take] at hlen
        have hfour : (ascii "www.").length = 4 := rfl
        omega
      rw [stripWww, stripWww, if_neg hnot, if_neg hnot']
    · rw [stripWww, stripWww, List.take_append_of_le_length hlong]
      split
      · exact List.drop_append_of_le_length hlong
      · rfl

theorem mem_stripWww {c : UInt8} (h : c ∈ stripWww host) : c ∈ host := by
  unfold stripWww at h
  split at h
  · exact List.mem_of_mem_drop h
  · exact h

theorem Parts.afterHost (h : Parts isHttps host visible fragment url) :
    AfterHost (visible ++ fragment) := by
  rcases h.visible.start with rfl | ⟨c, rest, rfl, rfl | rfl⟩
  · rcases h.fragment with rfl | ⟨rest, rfl⟩
    · exact Or.inl rfl
    · exact Or.inr ⟨35, rest, rfl, rfl⟩
  · exact Or.inr ⟨47, rest ++ fragment, rfl, rfl⟩
  · exact Or.inr ⟨63, rest ++ fragment, rfl, rfl⟩

/-- The fragment goes. -/
theorem takeWhile_visible (hvisible : Visible visible) (hfragment : Fragment fragment) :
    (visible ++ fragment).takeWhile (· ≠ 35) = visible := by
  have hall : ∀ c ∈ visible, decide (c ≠ 35) = true :=
    fun c hc => decide_eq_true fun heq => hvisible.noHash (heq ▸ hc)
  rw [List.takeWhile_append_of_pos hall]
  rcases hfragment with rfl | ⟨rest, rfl⟩
  · exact List.append_nil visible
  · rw [List.takeWhile_cons_of_neg (by decide), List.append_nil]

/-- The `www.` goes, the fragment goes, and the rest is judged. -/
theorem normalizeUrl_parts (h : Parts isHttps host visible fragment url) :
    normalizeUrl url = if 2048 < url.length then [] else judge isHttps (stripWww host) visible := by
  have hne : url ≠ [] := by
    rw [h.text]
    cases isHttps <;> exact List.cons_ne_nil _ _
  have hstrip : stripWww (host ++ (visible ++ fragment)) = stripWww host ++ (visible ++ fragment) :=
    stripWww_append h.afterHost.sign
  have htake : (stripWww host ++ (visible ++ fragment)).takeWhile
      (fun c => c ≠ 47 && c ≠ 63 && c ≠ 35) = stripWww host :=
    takeWhile_host (fun c hc => h.host c (mem_stripWww hc)) h.afterHost
  have hscheme : splitScheme url = some (isHttps, host ++ (visible ++ fragment)) := by
    rw [h.text, splitScheme_scheme]
  unfold normalizeUrl judge
  simp only [hne, false_or, hscheme, hstrip, htake, List.drop_left,
    takeWhile_visible h.visible h.fragment]
  rfl

theorem head_dropWhile {p : UInt8 → Bool} {c : UInt8} {rest : Bytes}
    (h : s.dropWhile p = c :: rest) : p c = false := by
  have hhead := List.head?_dropWhile_not p s
  rw [h] at hhead
  exact hhead

/-- A URL that is accepted has parts. -/
theorem exists_parts (h : normalizeUrl url ≠ []) :
    ∃ isHttps host visible fragment, Parts isHttps host visible fragment url := by
  have hscheme : ∃ isHttps p, url = scheme isHttps ++ p := by
    rcases (Bool.or_eq_true _ _).mp (hasScheme_of_normalizeUrl h) with h | h
    · exact ⟨false, (startsWith_iff.mp h).choose, (startsWith_iff.mp h).choose_spec.symm⟩
    · exact ⟨true, (startsWith_iff.mp h).choose, (startsWith_iff.mp h).choose_spec.symm⟩
  obtain ⟨isHttps, p, rfl⟩ := hscheme
  refine ⟨isHttps, p.takeWhile fun c => !endsHost c,
    (p.dropWhile fun c => !endsHost c).takeWhile (· ≠ 35),
    (p.dropWhile fun c => !endsHost c).dropWhile (· ≠ 35), ?_, ?_, ⟨?_, ?_⟩, ?_⟩
  · rw [List.takeWhile_append_dropWhile, List.takeWhile_append_dropWhile]
  · intro c hc
    rw [← Bool.not_eq_true']
    exact List.mem_takeWhile_imp (p := fun c => !endsHost c) hc
  · cases hrest : p.dropWhile fun c => !endsHost c with
    | nil => exact Or.inl rfl
    | cons c rest =>
      have hends : endsHost c = true := by
        rw [← Bool.not_eq_false']
        exact head_dropWhile hrest
      rw [List.takeWhile_cons]
      split
      · rename_i hhash
        refine Or.inr ⟨c, _, rfl, ?_⟩
        simp only [endsHost, Bool.or_eq_true, decide_eq_true_eq] at hends
        exact hends.resolve_right (of_decide_eq_true hhash)
      · exact Or.inl rfl
  · intro hmem
    have hne : (35 : UInt8) ≠ 35 :=
      of_decide_eq_true (List.mem_takeWhile_imp (p := fun c => decide (c ≠ 35)) hmem)
    exact hne rfl
  · cases hrest : (p.dropWhile fun c => !endsHost c).dropWhile (· ≠ 35) with
    | nil => exact Or.inl rfl
    | cons c rest =>
      have hhash : c = 35 := Decidable.not_not.mp (of_decide_eq_false (head_dropWhile hrest))
      exact Or.inr ⟨rest, hhash ▸ rfl⟩

/-! ## The host that counts -/

theorem takeWhile_colon {name : Bytes} (h : 58 ∉ name) (rest : Bytes)
    (hrest : rest.head?.all (· = 58)) : (name ++ rest).takeWhile (· ≠ 58) = name := by
  have hall : ∀ c ∈ name, decide (c ≠ 58) = true :=
    fun c hc => decide_eq_true fun heq => h (heq ▸ hc)
  rw [List.takeWhile_append_of_pos hall]
  cases rest with
  | nil => exact List.append_nil name
  | cons c rest =>
    have hc : c = 58 := of_decide_eq_true hrest
    rw [List.takeWhile_cons_of_neg (by rw [hc]; decide), List.append_nil]

theorem stripPort_noColon (h : 58 ∉ host) : stripPort isHttps host = host := by
  have hname := takeWhile_colon h [] rfl
  rw [List.append_nil] at hname
  unfold stripPort
  simp only [hname, ite_self]

theorem stripPort_colon {name port : Bytes} (h : 58 ∉ name) :
    stripPort isHttps (name ++ 58 :: port) =
      if port = defaultPort isHttps then name else name ++ 58 :: port := by
  unfold stripPort
  simp only [takeWhile_colon h (58 :: port) rfl, ← List.drop_drop, List.drop_left]
  rfl

theorem colon_cases (host : Bytes) :
    58 ∉ host ∨ ∃ name port, 58 ∉ name ∧ host = name ++ 58 :: port := by
  by_cases hcolon : 58 ∈ host
  · obtain ⟨name, port, heq, hname⟩ := List.eq_append_cons_of_mem hcolon
    exact Or.inr ⟨name, port, hname, heq⟩
  · exact Or.inl hcolon

theorem lowercase_defaultPort {port : Bytes} :
    lowercase port = defaultPort isHttps ↔ port = defaultPort isHttps := by
  constructor
  · apply eq_of_lowercase_eq
    cases isHttps <;> decide +kernel
  · rintro rfl
    cases isHttps <;> rfl

theorem stripPort_lowercase (isHttps : Bool) (host : Bytes) :
    stripPort isHttps (lowercase host) = lowercase (stripPort isHttps host) := by
  rcases colon_cases host with h | ⟨name, port, h, rfl⟩
  · rw [stripPort_noColon h, stripPort_noColon (mt (mem_lowercase rfl).mp h)]
  · have hsplit : lowercase (name ++ 58 :: port) = lowercase name ++ 58 :: lowercase port :=
      lowercase_append name (58 :: port)
    rw [hsplit, stripPort_colon (mt (mem_lowercase rfl).mp h), stripPort_colon h]
    simp only [lowercase_defaultPort]
    split
    · rfl
    · exact hsplit.symm

theorem stripPort_stripPort (isHttps : Bool) (host : Bytes) :
    stripPort isHttps (stripPort isHttps host) = stripPort isHttps host := by
  rcases colon_cases host with h | ⟨name, port, h, rfl⟩
  · rw [stripPort_noColon h, stripPort_noColon h]
  · rw [stripPort_colon h]
    split
    · exact stripPort_noColon h
    · rename_i hport
      rw [stripPort_colon h, if_neg hport]

theorem allowed_stripPort (isHttps : Bool) (host : Bytes) :
    (stripPort isHttps host).all isAllowedUrlChar = host.all isAllowedUrlChar := by
  rcases colon_cases host with h | ⟨name, port, h, rfl⟩
  · rw [stripPort_noColon h]
  · rw [stripPort_colon h]
    split
    · rename_i hport
      have hdigits : (58 :: port).all isAllowedUrlChar = true := by
        rw [hport]
        cases isHttps <;> decide
      rw [List.all_append, hdigits, Bool.and_true]
    · rfl

theorem allowed_lowercase (s : Bytes) :
    (lowercase s).all isAllowedUrlChar = s.all isAllowedUrlChar := by
  rw [lowercase, List.all_map]
  congr 1
  exact funext isAllowedUrlChar_tolower

theorem stripWww_lowercase (p : Bytes) : stripWww (lowercase p) = lowercase (stripWww p) := by
  unfold stripWww
  rw [← lowercase_take, lowercase_lowercase]
  split
  · exact (lowercase_drop 4 p).symm
  · rfl

/-- Two hosts that are one, but for the case of their letters and the default port. -/
def SameHost (isHttps : Bool) (host host' : Bytes) : Prop :=
  lowercase (stripPort isHttps host') = lowercase (stripPort isHttps host)

/-- The filters see of the host its name in lower case. -/
theorem Accepted.congr {host' : Bytes} (hsame : SameHost isHttps host host')
    (h : Accepted isHttps host path) : Accepted isHttps host' path := by
  have hne : host' ≠ [] := by
    rintro rfl
    have hnil : stripPort isHttps [] = [] := stripPort_noColon List.not_mem_nil
    have hempty : stripPort isHttps host = [] := by
      rw [← lowercase_eq_nil, ← hsame, hnil]
      rfl
    have htld := h.tld
    rw [hempty] at htld
    exact Bool.noConfusion htld
  have hchars : host'.all isAllowedUrlChar = host.all isAllowedUrlChar := by
    rw [← allowed_stripPort isHttps, ← allowed_lowercase, hsame, allowed_lowercase,
      allowed_stripPort]
  refine ⟨hne, h.extension, h.noQuery, ?_, ?_, ?_, ?_, ?_, h.junk, h.depth⟩
  · rw [allowedChars_append, hchars, ← allowedChars_append]
    exact h.chars
  · rw [← hasAllowedTld_lowercase, hsame, hasAllowedTld_lowercase]
    exact h.tld
  · rw [← isBlockedDomain_lowercase, hsame, isBlockedDomain_lowercase]
    exact h.blocked
  · rw [← hasNonEnglishCode_lowercase, hsame, hasNonEnglishCode_lowercase]
    exact h.language
  · rw [← hasGibberishHost_lowercase, hsame, hasGibberishHost_lowercase]
    exact h.gibberish

/-! ## Variants -/

/-- A `www.` in any case. -/
def IsWww (www : Bytes) : Prop := lowercase www = ascii "www."

/-- The host with its letters in another case, with a `www.` in front if it has none, and with
the default port behind if it has no port. -/
structure HostVariant (isHttps : Bool) (host www body port : Bytes) : Prop where
  letters : lowercase body = lowercase host
  www : www = [] ∨ IsWww www ∧ ¬IsWww (host.take 4)
  port : port = [] ∨ port = 58 :: defaultPort isHttps ∧ 58 ∉ host

/-- The second URL is the first one with a variant of the host and any fragment or none. -/
def Variant (url url' : Bytes) : Prop :=
  ∃ isHttps host visible fragment, Parts isHttps host visible fragment url ∧
    ∃ www body port, HostVariant isHttps host www body port ∧
      ∃ fragment', Fragment fragment' ∧
        url' = scheme isHttps ++ ((www ++ (body ++ port)) ++ (visible ++ fragment'))

variable {www body port : Bytes}

theorem IsWww.length (h : IsWww www) : www.length = 4 := by
  rw [← lowercase_length, h]
  rfl

theorem stripWww_of_not (h : ¬IsWww (host.take 4)) : stripWww host = host := if_neg h

theorem stripWww_www (h : IsWww www) (rest : Bytes) : stripWww (www ++ rest) = rest := by
  have htake : (www ++ rest).take 4 = www := by rw [← h.length, List.take_left]
  have hdrop : (www ++ rest).drop 4 = rest := by rw [← h.length, List.drop_left]
  rw [stripWww, htake, hdrop]
  exact if_pos h

/-- Without the `www.`, only the case of the letters and the port differ. -/
theorem HostVariant.stripped (h : HostVariant isHttps host www body port) :
    ∃ body', stripWww (www ++ (body ++ port)) = body' ++ port ∧
      lowercase body' = lowercase (stripWww host) := by
  rcases h.www with rfl | ⟨hwww, hnot⟩
  · have hport : ∀ c ∈ port.head?, isSign c = true ∧ c ≠ 46 := by
      intro c hc
      rcases h.port with rfl | ⟨rfl, -⟩
      · exact absurd hc (Option.not_mem_none c)
      · rw [← Option.some.inj hc]
        decide
    refine ⟨stripWww body, stripWww_append hport, ?_⟩
    rw [← stripWww_lowercase, h.letters, stripWww_lowercase]
  · exact ⟨body, stripWww_www hwww _, by rw [stripWww_of_not hnot, h.letters]⟩

theorem HostVariant.same (h : HostVariant isHttps host www body port) :
    SameHost isHttps (stripWww host) (stripWww (www ++ (body ++ port))) := by
  obtain ⟨body', hstrip, hbody⟩ := h.stripped
  unfold SameHost
  rw [hstrip]
  rcases h.port with rfl | ⟨rfl, hcolon⟩
  · rw [List.append_nil, ← stripPort_lowercase, hbody, stripPort_lowercase]
  · have hno : 58 ∉ stripWww host := fun hmem => hcolon (mem_stripWww hmem)
    have hno' : 58 ∉ body' := by rwa [← mem_lowercase rfl, hbody, mem_lowercase rfl]
    rw [stripPort_colon hno', if_pos rfl, stripPort_noColon hno, hbody]

theorem endsHost_lowercase :
    (∀ c ∈ lowercase s, endsHost c = false) ↔ ∀ c ∈ s, endsHost c = false := by
  have hsame : ∀ c : UInt8, endsHost (tolower c) = endsHost c := by
    intro c
    unfold endsHost
    simp only [tolower_eq_iff (k := 47) rfl, tolower_eq_iff (k := 63) rfl,
      tolower_eq_iff (k := 35) rfl]
  rw [lowercase, List.forall_mem_map]
  simp only [hsame]

theorem HostVariant.noEnd (h : HostVariant isHttps host www body port)
    (hhost : ∀ c ∈ host, endsHost c = false) :
    ∀ c ∈ www ++ (body ++ port), endsHost c = false := by
  rw [List.forall_mem_append, List.forall_mem_append]
  refine ⟨?_, ?_, ?_⟩
  · rcases h.www with rfl | ⟨hwww, -⟩
    · exact List.forall_mem_nil _
    · rw [← endsHost_lowercase, hwww]
      decide +kernel
  · rw [← endsHost_lowercase, h.letters, endsHost_lowercase]
    exact hhost
  · rcases h.port with rfl | ⟨rfl, -⟩
    · exact List.forall_mem_nil _
    · cases isHttps <;> decide +kernel

theorem judge_congr {host' : Bytes} (hsame : SameHost isHttps host host')
    (h : judge isHttps host visible ≠ []) :
    judge isHttps host' visible = judge isHttps host visible := by
  have haccepted := accepted_of_judge h
  rw [judge_of_accepted haccepted, judge_of_accepted (haccepted.congr hsame), canonical, canonical,
    hsame]

/-- The variants of a URL within the length limit are one page. -/
theorem variants_are_one {url url' : Bytes} (haccepted : normalizeUrl url ≠ [])
    (hvariant : Variant url url') (hlength : url'.length ≤ 2048) :
    normalizeUrl url' = normalizeUrl url := by
  obtain ⟨isHttps, host, visible, fragment, hparts, www, body, port, hhost, fragment', hfragment,
    htext⟩ := hvariant
  have hparts' : Parts isHttps (www ++ (body ++ port)) visible fragment' url' :=
    ⟨htext, hhost.noEnd hparts.host, hparts.visible, hfragment⟩
  rw [normalizeUrl_parts hparts] at haccepted ⊢
  obtain ⟨hlong, hjudge⟩ := passed haccepted
  rw [normalizeUrl_parts hparts', if_neg hlong, if_neg (Nat.not_lt.mpr hlength)]
  exact judge_congr hhost.same hjudge

theorem example_com_variant :
    normalizeUrl (ascii "https://WWW.Example.COM:443/a#top") =
      normalizeUrl (ascii "https://example.com/a") := by
  apply variants_are_one
  · decide +kernel
  · refine ⟨true, ascii "example.com", ascii "/a", [], ⟨?_, ?_, ⟨?_, ?_⟩, Or.inl rfl⟩,
      ascii "WWW.", ascii "Example.COM", 58 :: ascii "443", ⟨?_, ?_, ?_⟩, ascii "#top",
      Or.inr ⟨ascii "top", rfl⟩, ?_⟩
    · decide +kernel
    · decide +kernel
    · exact Or.inr ⟨47, ascii "a", rfl, Or.inl rfl⟩
    · decide
    · decide +kernel
    · exact Or.inr ⟨rfl, by unfold IsWww; decide +kernel⟩
    · exact Or.inr ⟨rfl, by decide⟩
    · decide +kernel
  · decide +kernel

end seamus.url_identity
