-- The second pass of `normalize_url`: a rewrite of the first one can leave work for it.
import Seamus.UrlIdentity
import Mathlib.Data.List.GetD

open seamus.html_tags seamus.html seamus.url_filter seamus.url_identity

namespace seamus.url_rewrites

variable {isHttps : Bool} {host visible fragment url path content : Bytes}

/-! ## The path -/

theorem fixPath_strip (hroot : path.head? = some 47) (hlen : 1 < path.length)
    (hlast : path.getLast? = some 47) : fixPath path = path.dropLast := by
  unfold fixPath
  simp only [if_pos hroot]
  exact if_pos ⟨hlen, hlast⟩

theorem fixPath_keep (hroot : path.head? = some 47)
    (h : ¬(1 < path.length ∧ path.getLast? = some 47)) : fixPath path = path := by
  unfold fixPath
  simp only [if_pos hroot]
  exact if_neg h

theorem fixPath_shorter (hroot : path.head? = some 47) : fixPath path <+: path := by
  by_cases h : 1 < path.length ∧ path.getLast? = some 47
  · rw [fixPath_strip hroot h.1 h.2]
    exact List.dropLast_prefix path
  · rw [fixPath_keep hroot h]

theorem head_dropLast (hroot : path.head? = some 47) (hlen : 1 < path.length) :
    path.dropLast.head? = some 47 := by
  rcases path with - | ⟨c, - | ⟨d, rest⟩⟩
  · exact hroot
  · exact absurd hlen (Nat.lt_irrefl 1)
  · exact hroot

theorem head_fixPath (hroot : path = [] ∨ path.head? = some 47) :
    (fixPath path).head? = some 47 := by
  rcases hroot with rfl | hroot
  · rfl
  by_cases h : 1 < path.length ∧ path.getLast? = some 47
  · rw [fixPath_strip hroot h.1 h.2]
    exact head_dropLast hroot h.1
  · rwa [fixPath_keep hroot h]

theorem fixPath_eq_self_iff (hroot : path.head? = some 47) :
    fixPath path = path ↔ ¬(1 < path.length ∧ path.getLast? = some 47) := by
  constructor
  · rintro heq ⟨hlen, hlast⟩
    rw [fixPath_strip hroot hlen hlast] at heq
    have hshort := congrArg List.length heq
    rw [List.length_dropLast] at hshort
    omega
  · exact fixPath_keep hroot

/-- One slash of several is stripped. -/
theorem fixPath_fixPath_iff (hroot : path = [] ∨ path.head? = some 47) :
    fixPath (fixPath path) = fixPath path ↔ ¬(2 < path.length ∧ ascii "//" <:+ path) := by
  rcases hroot with rfl | hroot
  · exact iff_of_true rfl fun h => absurd h.1 (Nat.not_lt_zero 2)
  by_cases h : 1 < path.length ∧ path.getLast? = some 47
  · rw [fixPath_strip hroot h.1 h.2, fixPath_eq_self_iff (head_dropLast hroot h.1)]
    obtain ⟨p, rfl⟩ := List.getLast?_eq_some_iff.mp h.2
    have hslashes : ascii "//" <:+ p ++ [47] ↔ p.getLast? = some 47 := by
      rw [List.getLast?_eq_some_iff]
      constructor
      · rintro ⟨t, ht⟩
        have hcut : (t ++ [47]) ++ [47] = p ++ [47] := by
          rw [← ht, List.append_assoc]
          rfl
        exact ⟨t, (List.append_cancel_right hcut).symm⟩
      · rintro ⟨t, rfl⟩
        exact ⟨t, by rw [List.append_assoc]; rfl⟩
    rw [List.dropLast_concat, hslashes, List.length_append, List.length_singleton]
    exact not_congr (and_congr_left' (by omega))
  · rw [fixPath_keep hroot h]
    refine iff_of_true (fixPath_keep hroot h) ?_
    rintro ⟨hlen, t, rfl⟩
    refine h ⟨by omega, List.getLast?_eq_some_iff.mpr ⟨t ++ [47], ?_⟩⟩
    rw [List.append_assoc]
    rfl

/-- An extension can hide behind the slash at the end. -/
theorem hasBadExtension_fixPath (hroot : path = [] ∨ path.head? = some 47)
    (hpath : hasBadExtension path = false) :
    hasBadExtension (fixPath path) = false ↔
      (path.getLast? = some 47 → hasBadExtension path.dropLast = false) := by
  have hnil : hasBadExtension [] = false := by decide
  rcases hroot with rfl | hroot
  · exact iff_of_true (by decide) fun _ => hnil
  by_cases h : 1 < path.length ∧ path.getLast? = some 47
  · rw [fixPath_strip hroot h.1 h.2]
    exact ⟨fun hext _ => hext, fun hext => hext h.2⟩
  · rw [fixPath_keep hroot h]
    refine iff_of_true hpath fun hlast => ?_
    have hempty : path.dropLast = [] := by
      have hshort : path.length ≤ 1 := Nat.not_lt.mp fun hlen => h ⟨hlen, hlast⟩
      rw [← List.length_eq_zero_iff, List.length_dropLast]
      exact Nat.sub_eq_zero_of_le hshort
    rw [hempty, hnil]

/-! ## The filters on a shorter path -/

theorem hasNonEnglishCode_grows {p : Bytes} (hp : p <+: path)
    (h : hasNonEnglishCode content p = true) : hasNonEnglishCode content path = true := by
  obtain ⟨t, rfl⟩ := hp
  unfold hasNonEnglishCode at h ⊢
  rw [Bool.or_eq_true] at h ⊢
  refine h.imp_right fun h => ?_
  simp only [Bool.and_eq_true, decide_eq_true_eq] at h ⊢
  obtain ⟨⟨⟨hlen, hhead⟩, hafter⟩, hcode⟩ := h
  refine ⟨⟨⟨?_, ?_⟩, ?_⟩, ?_⟩
  · rw [List.length_append]
    exact Nat.le_add_right_of_le hlen
  · rw [List.head?_append, hhead]
    rfl
  · rwa [List.getD_append _ _ _ _ hlen]
  · unfold isNonEnglishCode at hcode ⊢
    rwa [List.drop_append_of_le_length (by omega),
      List.take_append_of_le_length (by rw [List.length_drop]; omega)]

theorem hasJunkPath_grows {p : Bytes} (hp : p <+: path) (h : hasJunkPath p = true) :
    hasJunkPath path = true := by
  obtain ⟨t, rfl⟩ := hp
  unfold hasJunkPath at h ⊢
  simp only [List.any_eq_true, List.mem_tails] at h ⊢
  obtain ⟨seg, hseg, q, hq, hstart⟩ := h
  obtain ⟨r, rfl⟩ := hq
  refine ⟨seg, hseg, q ++ t, ⟨r, (List.append_assoc r q t).symm⟩, ?_⟩
  rw [startsWith_iff] at hstart ⊢
  rw [lowercase_append]
  exact List.prefix_append_of_prefix hstart

/-- What is accepted of a path is accepted of the path cut short, but for its extension. -/
theorem accepted_shorter {p : Bytes} (hp : p <+: path) (hextension : hasBadExtension p = false)
    (h : Accepted isHttps host path) : Accepted isHttps host p := by
  refine ⟨h.host_ne, hextension, fun hmem => h.noQuery (hp.subset hmem), ?_, h.tld, h.blocked,
    ?_, h.gibberish, ?_, ?_⟩
  · have hchars := h.chars
    rw [allowedChars_append, Bool.and_eq_true] at hchars ⊢
    refine ⟨hchars.1, ?_⟩
    rw [List.all_eq_true]
    exact fun c hc => List.all_eq_true.mp hchars.2 c (hp.subset hc)
  · have hlanguage := h.language
    rw [Bool.eq_false_iff] at hlanguage ⊢
    exact mt (hasNonEnglishCode_grows hp) hlanguage
  · have hjunk := h.junk
    rw [Bool.eq_false_iff] at hjunk ⊢
    exact mt (hasJunkPath_grows hp) hjunk
  · have hdepth := h.depth
    have hcount : p.count 47 ≤ path.count 47 := hp.sublist.count_le 47
    unfold exceedsPathDepth at hdepth ⊢
    rw [decide_eq_false_iff_not] at hdepth ⊢
    exact fun hdeep => hdepth (Nat.lt_of_lt_of_le hdeep hcount)

/-- The root is accepted where no path was. -/
theorem accepted_root (h : Accepted isHttps host []) : Accepted isHttps host [47] := by
  refine ⟨h.host_ne, by decide, by decide, ?_, h.tld, h.blocked, ?_, h.gibberish,
    by decide +kernel, by decide⟩
  · have hchars := h.chars
    rw [allowedChars_append, List.all_nil, Bool.and_true] at hchars
    rw [allowedChars_append, hchars]
    decide
  · exact h.language

theorem accepted_fixPath (hroot : path = [] ∨ path.head? = some 47)
    (hextension : hasBadExtension (fixPath path) = false) (h : Accepted isHttps host path) :
    Accepted isHttps host (fixPath path) := by
  rcases hroot with rfl | hroot
  · exact accepted_root h
  · exact accepted_shorter (fixPath_shorter hroot) hextension h

/-! ## The second pass -/

/-- The scheme of a URL, its host without `www.` and default port, and what is visible behind. -/
def readUrl (url : Bytes) : Option (Bool × Bytes × Bytes) :=
  (splitScheme url).map fun (isHttps, p) =>
    let host := (stripWww p).takeWhile fun c => c ≠ 47 && c ≠ 63 && c ≠ 35
    (isHttps, stripPort isHttps host, ((stripWww p).drop host.length).takeWhile (· ≠ 35))

/-- A second pass finds nothing to do: no second `www.`, one `/` at the end of the path, no bad
extension in front of it, and room for a `/` where there is no path. -/
structure Settled (isHttps : Bool) (content path : Bytes) : Prop where
  www : ¬IsWww (content.take 4)
  slashes : ¬(2 < path.length ∧ ascii "//" <:+ path)
  extension : path.getLast? = some 47 → hasBadExtension path.dropLast = false
  room : path = [] → (scheme isHttps).length + content.length < 2048

/-- The URL is settled by one pass. -/
def SettledUrl (url : Bytes) : Prop :=
  ∀ isHttps content path, readUrl url = some (isHttps, content, path) →
    Settled isHttps content path

theorem readUrl_parts (h : Parts isHttps host visible fragment url) :
    readUrl url = some (isHttps, stripPort isHttps (stripWww host), visible) := by
  have hstrip : stripWww (host ++ (visible ++ fragment)) = stripWww host ++ (visible ++ fragment) :=
    stripWww_append h.afterHost.sign
  have htake : (stripWww host ++ (visible ++ fragment)).takeWhile
      (fun c => c ≠ 47 && c ≠ 63 && c ≠ 35) = stripWww host :=
    takeWhile_host (fun c hc => h.host c (mem_stripWww hc)) h.afterHost
  unfold readUrl
  rw [h.text, splitScheme_scheme, Option.map_some]
  simp only [hstrip, htake, List.drop_left, takeWhile_visible h.visible h.fragment]

theorem settledUrl_iff (h : Parts isHttps host visible fragment url) :
    SettledUrl url ↔ Settled isHttps (stripPort isHttps (stripWww host)) visible := by
  unfold SettledUrl
  rw [readUrl_parts h]
  constructor
  · intro hsettled
    exact hsettled isHttps _ _ rfl
  · intro hsettled isHttps' content path heq
    obtain ⟨rfl, hrest⟩ := Prod.mk.inj (Option.some.inj heq)
    obtain ⟨rfl, rfl⟩ := Prod.mk.inj hrest
    exact hsettled

theorem root_of_visible (hvisible : Visible path) (hquery : 63 ∉ path) :
    path = [] ∨ path.head? = some 47 := by
  refine hvisible.start.imp_right ?_
  rintro ⟨c, rest, rfl, rfl | rfl⟩
  · rfl
  · exact absurd List.mem_cons_self hquery

theorem stripWww_length_le (p : Bytes) : (stripWww p).length ≤ p.length := by
  unfold stripWww
  split
  · rw [List.length_drop]
    exact Nat.sub_le p.length 4
  · exact Nat.le_refl p.length

theorem stripPort_shorter (isHttps : Bool) (host : Bytes) : stripPort isHttps host <+: host := by
  rcases colon_cases host with h | ⟨name, port, h, rfl⟩
  · rw [stripPort_noColon h]
  · rw [stripPort_colon h]
    split
    · exact List.prefix_append name (58 :: port)
    · exact List.prefix_rfl

theorem visible_fixPath (hroot : path = [] ∨ path.head? = some 47) (hvisible : Visible path) :
    Visible (fixPath path) := by
  obtain ⟨rest, hrest⟩ := List.head?_eq_some_iff.mp (head_fixPath hroot)
  refine ⟨Or.inr ⟨47, rest, hrest, Or.inl rfl⟩, ?_⟩
  rcases hroot with rfl | hroot
  · decide
  · exact fun hmem => hvisible.noHash ((fixPath_shorter hroot).subset hmem)

/-- The parts of the result. -/
theorem canonical_parts (hhost : ∀ c ∈ host, endsHost c = false)
    (hroot : path = [] ∨ path.head? = some 47) (hvisible : Visible path) :
    Parts isHttps (lowercase (stripPort isHttps host)) (fixPath path) []
      (canonical isHttps host path) := by
  refine ⟨?_, ?_, visible_fixPath hroot hvisible, Or.inl rfl⟩
  · rw [canonical, List.append_assoc, List.append_nil]
  · rw [endsHost_lowercase]
    exact fun c hc => hhost c ((stripPort_shorter isHttps host).subset hc)

theorem canonical_ne_nil (isHttps : Bool) (host path : Bytes) :
    canonical isHttps host path ≠ [] := by
  cases isHttps <;> exact List.cons_ne_nil _ _

theorem canonical_length (isHttps : Bool) (host path : Bytes) :
    (canonical isHttps host path).length =
      (scheme isHttps).length + (stripPort isHttps host).length + (fixPath path).length := by
  rw [canonical, List.length_append, List.length_append, lowercase_length]

theorem isWww_lowercase : IsWww (lowercase content) ↔ IsWww content := by
  rw [IsWww, lowercase_lowercase, IsWww]

/-- What the second pass makes of the result of the first one. -/
def secondPass (isHttps : Bool) (host path : Bytes) : Bytes :=
  if 2048 < (canonical isHttps host path).length then []
  else judge isHttps (stripWww (lowercase (stripPort isHttps host))) (fixPath path)

/-- With another `www.` in front the second pass gives less text. -/
theorem not_www_of_secondPass (hroot : path = [] ∨ path.head? = some 47)
    (h : canonical isHttps (stripWww (lowercase (stripPort isHttps host))) (fixPath path) =
      canonical isHttps host path) : ¬IsWww ((stripPort isHttps host).take 4) := by
  intro hwww
  have hstrip : stripWww (lowercase (stripPort isHttps host)) =
      (lowercase (stripPort isHttps host)).drop 4 := by
    apply if_pos
    rw [← lowercase_take, lowercase_lowercase]
    exact hwww
  have hfour : 4 ≤ (stripPort isHttps host).length := by
    have htake := hwww.length
    rw [List.length_take] at htake
    omega
  have hcontent := (stripPort_shorter isHttps
    ((lowercase (stripPort isHttps host)).drop 4)).length_le
  have hpath := (fixPath_shorter (head_fixPath hroot)).length_le
  have hlength := congrArg List.length h
  rw [canonical_length, canonical_length, hstrip] at hlength
  rw [List.length_drop, lowercase_length] at hcontent
  omega

theorem settled_of_secondPass (hroot : path = [] ∨ path.head? = some 47)
    (hextension : hasBadExtension path = false)
    (h : secondPass isHttps host path = canonical isHttps host path) :
    Settled isHttps (stripPort isHttps host) path := by
  have hne : secondPass isHttps host path ≠ [] := h ▸ canonical_ne_nil isHttps host path
  obtain ⟨hlong, hjudge⟩ := passed hne
  have hagain := accepted_of_judge hjudge
  rw [secondPass, if_neg hlong, judge_of_accepted hagain] at h
  have hwww := not_www_of_secondPass hroot h
  have hkeep : stripWww (lowercase (stripPort isHttps host)) =
      lowercase (stripPort isHttps host) := by
    apply stripWww_of_not
    rwa [← lowercase_take, isWww_lowercase]
  rw [hkeep, canonical, canonical, stripPort_lowercase, stripPort_stripPort,
    lowercase_lowercase] at h
  refine ⟨hwww, (fixPath_fixPath_iff hroot).mp (List.append_cancel_left h),
    (hasBadExtension_fixPath hroot hextension).mp hagain.extension, ?_⟩
  rintro rfl
  rw [canonical_length] at hlong
  have hslash : (fixPath []).length = 1 := rfl
  omega

theorem secondPass_of_settled (hroot : path = [] ∨ path.head? = some 47)
    (haccepted : Accepted isHttps host path)
    (hlength : (scheme isHttps).length + host.length + path.length ≤ 2048)
    (h : Settled isHttps (stripPort isHttps host) path) :
    secondPass isHttps host path = canonical isHttps host path := by
  have hshort : (canonical isHttps host path).length ≤ 2048 := by
    rw [canonical_length]
    rcases hroot with rfl | hroot
    · exact h.room rfl
    · have hcontent := (stripPort_shorter isHttps host).length_le
      have hpath := (fixPath_shorter hroot).length_le
      omega
  have hkeep : stripWww (lowercase (stripPort isHttps host)) =
      lowercase (stripPort isHttps host) := by
    apply stripWww_of_not
    rw [← lowercase_take, isWww_lowercase]
    exact h.www
  have hsame : SameHost isHttps host (lowercase (stripPort isHttps host)) := by
    rw [SameHost, stripPort_lowercase, stripPort_stripPort, lowercase_lowercase]
  have hextension := (hasBadExtension_fixPath hroot haccepted.extension).mpr h.extension
  have hagain := (accepted_fixPath hroot hextension haccepted).congr hsame
  rw [secondPass, if_neg (Nat.not_lt.mpr hshort), hkeep, judge_of_accepted hagain, canonical,
    canonical, hsame, (fixPath_fixPath_iff hroot).mpr h.slashes]

/-- A second pass changes nothing exactly where one pass settles the URL. -/
theorem normalizes_again_iff (haccepted : normalizeUrl url ≠ []) :
    normalizeUrl (normalizeUrl url) = normalizeUrl url ↔ SettledUrl url := by
  obtain ⟨isHttps, host, visible, fragment, h⟩ := exists_parts haccepted
  rw [normalizeUrl_parts h] at haccepted
  obtain ⟨hlong, hjudge⟩ := passed haccepted
  have hfirst := accepted_of_judge hjudge
  have hroot := root_of_visible h.visible hfirst.noQuery
  have hhost : ∀ c ∈ stripWww host, endsHost c = false := fun c hc => h.host c (mem_stripWww hc)
  have hlength : (scheme isHttps).length + (stripWww host).length + visible.length ≤ 2048 := by
    have hstrip := stripWww_length_le host
    rw [h.text] at hlong
    simp only [List.length_append] at hlong
    omega
  rw [settledUrl_iff h, normalizeUrl_parts h, if_neg hlong, judge_of_accepted hfirst,
    normalizeUrl_parts (canonical_parts hhost hroot h.visible)]
  constructor
  · exact settled_of_secondPass hroot hfirst.extension
  · exact secondPass_of_settled hroot hfirst hlength

theorem example_com_again :
    normalizeUrl (normalizeUrl (ascii "https://example.com/a")) =
        normalizeUrl (ascii "https://example.com/a") ↔
      SettledUrl (ascii "https://example.com/a") := by
  apply normalizes_again_iff
  decide +kernel

/-- The second `www.` is stripped when the URL is read again. -/
theorem second_www_is_stripped :
    ¬∀ url, normalizeUrl url ≠ [] → normalizeUrl (normalizeUrl url) = normalizeUrl url := by
  intro h
  have hfirst : normalizeUrl (ascii "http://www.www.example.com/") =
      ascii "http://www.example.com/" := by decide +kernel
  have hsecond : normalizeUrl (ascii "http://www.example.com/") =
      ascii "http://example.com/" := by decide +kernel
  have hagain := h (ascii "http://www.www.example.com/")
  rw [hfirst, hsecond] at hagain
  have hshorter : ascii "http://example.com/" ≠ ascii "http://www.example.com/" := by decide +kernel
  exact hshorter (hagain (List.cons_ne_nil _ _))

end seamus.url_rewrites
