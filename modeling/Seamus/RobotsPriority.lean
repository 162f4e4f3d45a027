-- The decision of `PathAllowed` against the order that the header documents: the number of
-- literal bytes, then a final `$`, then allow before disallow. The count of the constructor
-- takes the `$` for a literal byte, so that a directive can overtake a longer one.
import Seamus.RobotsTxt
import Seamus.Library.Priority
import Mathlib.Data.List.Infix
import Mathlib.Data.List.Perm.Basic

open priority seamus.robots_txt

namespace seamus.robots_priority

/-- A directive as it stands in the file. -/
abbrev Statement := Permission × Bytes

/-! ## The documented order -/

def endsInDollar (pattern : Bytes) : Bool := pattern.getLast? = some dollar

def withoutDollar (pattern : Bytes) : Bytes :=
  if endsInDollar pattern then pattern.dropLast else pattern

/-- The bytes of the decoded pattern that are neither a `*` nor the final `$`. -/
def literalCount (s : Statement) : Nat :=
  ((withoutDollar (patternOf s.2)).filter fun c => c ≠ star).length

def hasDollar (s : Statement) : Bool := endsInDollar (patternOf s.2)

/-- The order of the header, from `Allow` and `Disallow` statements. -/
def documentedBefore (a b : Statement) : Bool :=
  literalCount a > literalCount b ||
    (literalCount a = literalCount b &&
      ((hasDollar a && !hasDollar b) ||
        (hasDollar a = hasDollar b && a.1 = .allow && b.1 = .disallow)))

def matchesUser (user : Bytes) (names : List Bytes) : Bool :=
  names.any fun name => (findSubstring name user).isSome || name = [star]

/-- The directives that match the path, in all groups that match the user agent. -/
def applicable (groups : List Group) (user path : Bytes) : List Statement :=
  (groups.filter fun g => matchesUser (cString user) g.userAgents).flatMap fun g =>
    g.directives.filter fun s =>
      (Wildcard.ofArgument s.2).matchPath (cString (urlDecode (dropSlash (cString path))))

/-- The answer of the directives: that of one before which no other comes. -/
def IsAnswer (statements : List Statement) (allowed : Bool) : Prop :=
  (statements = [] ∧ allowed = true) ∨
    ∃ d ∈ statements, (∀ e ∈ statements, documentedBefore e d = false) ∧
      allowed = decide (d.1 = .allow)

/-- Groups in another order, with the directives of each in another order. -/
def Reordered (groups groups' : List Group) : Prop :=
  ∃ moved, groups.Perm moved ∧
    List.Forall₂ (fun g g' => g.userAgents = g'.userAgents ∧ g.directives.Perm g'.directives)
      moved groups'

/-! ## Wildcards -/

/-- What a pattern without its `$` matches: a `*` matches any bytes. -/
inductive Glob : Bytes → Bytes → Prop
  | nil : Glob [] []
  | byte {c : UInt8} {pattern path : Bytes} (hc : c ≠ star) (h : Glob pattern path) :
    Glob (c :: pattern) (c :: path)
  | stop {pattern path : Bytes} (h : Glob pattern path) : Glob (star :: pattern) path
  | more {pattern path : Bytes} (c : UInt8) (h : Glob (star :: pattern) path) :
    Glob (star :: pattern) (c :: path)

theorem Glob.any {pattern path : Bytes} (before : Bytes) (h : Glob pattern path) :
    Glob (star :: pattern) (before ++ path) := by
  induction before with
  | nil => exact .stop h
  | cons c before ih => exact .more c ih

theorem glob_star {pattern path : Bytes} :
    Glob (star :: pattern) path ↔ ∃ before after, path = before ++ after ∧ Glob pattern after := by
  constructor
  · intro h
    generalize hp : star :: pattern = full at h
    induction h with
    | nil => cases hp
    | byte hc h ih =>
      cases hp
      exact absurd rfl hc
    | @stop pattern' path h ih =>
      cases hp
      exact ⟨[], path, rfl, h⟩
    | more c h ih =>
      obtain ⟨before, after, rfl, hglob⟩ := ih hp
      exact ⟨c :: before, after, rfl, hglob⟩
  · rintro ⟨before, after, rfl, h⟩
    exact h.any before

theorem glob_nil {path : Bytes} : Glob [] path ↔ path = [] := by
  constructor
  · intro h
    cases h
    rfl
  · rintro rfl
    exact .nil

theorem glob_byte {c : UInt8} {pattern path : Bytes} (hc : c ≠ star) :
    Glob (c :: pattern) path ↔ ∃ rest, path = c :: rest ∧ Glob pattern rest := by
  constructor
  · intro h
    cases h with
    | byte _ h => exact ⟨_, rfl, h⟩
    | stop => exact absurd rfl hc
    | more => exact absurd rfl hc
  · rintro ⟨rest, rfl, h⟩
    exact .byte hc h

/-- A directive matches when its pattern matches the start of the path, or all of it when
it ends in `$`. -/
def Starts (endsInDollarSign : Bool) (pattern path : Bytes) : Prop :=
  ∃ first rest, path = first ++ rest ∧ Glob pattern first ∧ (endsInDollarSign = true → rest = [])

theorem starts_star {e : Bool} {pattern path : Bytes} :
    Starts e (star :: pattern) path ↔ ∃ suffix ∈ path.tails, Starts e pattern suffix := by
  constructor
  · rintro ⟨first, rest, rfl, hglob, hend⟩
    obtain ⟨before, after, rfl, h⟩ := glob_star.mp hglob
    refine ⟨after ++ rest, ?_, after, rest, rfl, h, hend⟩
    rw [List.mem_tails]
    exact ⟨before, (List.append_assoc _ _ _).symm⟩
  · rintro ⟨suffix, hsuffix, first, rest, rfl, h, hend⟩
    obtain ⟨before, hbefore⟩ := (List.mem_tails _ _).mp hsuffix
    refine ⟨before ++ first, rest, ?_, h.any before, hend⟩
    rw [← hbefore, List.append_assoc]

theorem starts_byte {e : Bool} {c : UInt8} {pattern path : Bytes} (hc : c ≠ star) :
    Starts e (c :: pattern) path ↔ ∃ rest, path = c :: rest ∧ Starts e pattern rest := by
  constructor
  · rintro ⟨first, rest, rfl, hglob, hend⟩
    obtain ⟨first, rfl, h⟩ := (glob_byte hc).mp hglob
    exact ⟨first ++ rest, rfl, first, rest, rfl, h, hend⟩
  · rintro ⟨path, rfl, first, rest, rfl, h, hend⟩
    exact ⟨c :: first, rest, rfl, .byte hc h, hend⟩

/-- The search for a `*` passes over the empty rest of the path, which no byte can match. -/
theorem starts_suffix {e : Bool} {c : UInt8} {pattern path : Bytes} (hc : c ≠ star) :
    (∃ suffix ∈ path.tails, suffix ≠ [] ∧ Starts e (c :: pattern) suffix) ↔
      ∃ suffix ∈ path.tails, Starts e (c :: pattern) suffix := by
  constructor
  · rintro ⟨suffix, hsuffix, _, h⟩
    exact ⟨suffix, hsuffix, h⟩
  · rintro ⟨suffix, hsuffix, h⟩
    obtain ⟨rest, rfl, _⟩ := (starts_byte hc).mp h
    exact ⟨_, hsuffix, List.cons_ne_nil _ _, h⟩

/-- `Match` is what the header says of `*` and `$`. -/
theorem wildcardMatch_iff (e : Bool) (pattern path : Bytes) :
    wildcardMatch e pattern path = true ↔ Starts e pattern path := by
  induction pattern generalizing path with
  | nil =>
    unfold wildcardMatch Starts
    simp only [glob_nil, Bool.or_eq_true, Bool.not_eq_true', decide_eq_true_eq]
    constructor
    · intro h
      refine ⟨[], path, rfl, rfl, fun he => ?_⟩
      rcases h with h | h
      · rw [he] at h
        cases h
      · exact h
    · rintro ⟨first, rest, rfl, rfl, h⟩
      cases e with
      | false => exact Or.inl rfl
      | true => exact Or.inr (h rfl)
  | cons c pattern ih =>
    unfold wildcardMatch
    by_cases hc : c = star
    · subst hc
      rw [if_neg (not_not.mpr rfl), starts_star]
      cases pattern with
      | nil =>
        rw [if_pos rfl]
        refine iff_of_true rfl ⟨[], (List.mem_tails _ _).mpr List.nil_suffix, [], [], rfl, .nil, ?_⟩
        exact fun _ => rfl
      | cons c' pattern =>
        rw [if_neg (List.cons_ne_nil _ _), List.head?_cons]
        by_cases hc' : c' = star
        · subst hc'
          rw [if_pos rfl, ih]
          constructor
          · exact fun h => ⟨path, (List.mem_tails _ _).mpr (List.suffix_refl _), h⟩
          · rintro ⟨suffix, hsuffix, h⟩
            obtain ⟨suffix', hsuffix', h'⟩ := starts_star.mp h
            refine starts_star.mpr ⟨suffix', ?_, h'⟩
            rw [List.mem_tails] at hsuffix hsuffix' ⊢
            exact hsuffix'.trans hsuffix
        · rw [if_neg (fun h => hc' (Option.some.inj h)), List.any_eq_true, ← starts_suffix hc']
          simp only [Bool.and_eq_true, decide_eq_true_eq, ih]
    · rw [if_pos hc, starts_byte hc]
      cases path with
      | nil => simp
      | cons d path =>
        simp only [Bool.and_eq_true, decide_eq_true_eq, ih, List.cons.injEq]
        constructor
        · rintro ⟨rfl, h⟩
          exact ⟨path, ⟨rfl, rfl⟩, h⟩
        · rintro ⟨rest, ⟨rfl, rfl⟩, h⟩
          exact ⟨rfl, h⟩

/-! ## The two counts -/

theorem scan_spec (pattern : Bytes) :
    (Wildcard.scan pattern).literalBytes =
        ((withoutDollar pattern).filter fun c => c ≠ star).length +
          (endsInDollar pattern).toNat ∧
      (Wildcard.scan pattern).endsInDollarSign = endsInDollar pattern ∧
      (Wildcard.scan pattern).wildcard = withoutDollar pattern := by
  induction pattern with
  | nil => exact ⟨rfl, rfl, rfl⟩
  | cons c pattern ih =>
    obtain ⟨hliteral, hends, hwildcard⟩ := ih
    unfold Wildcard.scan
    by_cases hlast : c = dollar ∧ pattern = []
    · obtain ⟨rfl, rfl⟩ := hlast
      decide
    · rw [if_neg hlast]
      have hend : endsInDollar (c :: pattern) = endsInDollar pattern := by
        cases pattern with
        | nil =>
          have hc : c ≠ dollar := fun hc => hlast ⟨hc, rfl⟩
          simp [endsInDollar, hc]
        | cons d pattern => rfl
      have hwithout : withoutDollar (c :: pattern) = c :: withoutDollar pattern := by
        unfold withoutDollar
        rw [hend]
        split
        · cases pattern with
          | nil => cases ‹endsInDollar [] = true›
          | cons d pattern => rfl
        · rfl
      refine ⟨?_, ?_, ?_⟩
      · simp only [hliteral, hend, hwithout, List.filter_cons]
        by_cases hc : c = star <;> simp [hc]
        omega
      · rw [hend, ← hends]
      · rw [hwithout, ← hwildcard]

/-- The order of the header as a number. -/
def documentedRank (s : Statement) : Nat :=
  4 * literalCount s + 2 * (hasDollar s).toNat + (decide (s.1 = .allow)).toNat

/-- The order of the code as a number. -/
def codeRank (d : Directive) : Nat :=
  4 * d.wildcard.literalBytes + 2 * d.wildcard.endsInDollarSign.toNat +
    (decide (d.type = .allow)).toNat

theorem documentedBefore_iff (a b : Statement) :
    documentedBefore a b = true ↔ documentedRank b < documentedRank a := by
  obtain ⟨p, arg⟩ := a
  obtain ⟨q, arg'⟩ := b
  unfold documentedBefore documentedRank
  cases hasDollar (p, arg) <;> cases hasDollar (q, arg') <;> cases p <;> cases q <;>
    simp <;> omega

theorem takesPriority_iff (a b : Directive) :
    takesPriority a b = true ↔ codeRank b < codeRank a := by
  obtain ⟨p, wildcard, literalBytes, e⟩ := a
  obtain ⟨q, wildcard', literalBytes', e'⟩ := b
  unfold takesPriority moreSpecific codeRank
  cases e <;> cases e' <;> cases p <;> cases q <;> simp <;> omega

/-- The code counts the final `$` as one literal byte more. -/
theorem codeRank_ofStatement (s : Statement) :
    codeRank (.ofStatement s) = documentedRank s + 4 * (hasDollar s).toNat := by
  obtain ⟨hliteral, hends, _⟩ := scan_spec (patternOf s.2)
  unfold codeRank documentedRank Directive.ofStatement Wildcard.ofArgument
  simp only [hliteral, hends]
  unfold literalCount hasDollar
  omega

/-! ## One rule -/

theorem takesPriority_strict : quick_sort.StrictOrder takesPriority where
  irrefl d := by
    rw [← Bool.not_eq_true, takesPriority_iff]
    exact Nat.lt_irrefl _
  trans a b c hab hbc := by
    rw [takesPriority_iff] at *
    exact Nat.lt_trans hbc hab

theorem takesPriority_false {a b : Directive} :
    takesPriority a b = false ↔ codeRank a ≤ codeRank b := by
  rw [← Bool.not_eq_true, takesPriority_iff, Nat.not_lt]

/-- The directives of a group that match a decoded path. -/
def matching (path : Bytes) (g : Group) : List Directive :=
  (g.directives.map Directive.ofStatement).filter fun d => d.wildcard.matchPath path

theorem rule_directives_perm (g : Group) :
    g.rule.directives.Perm (g.directives.map Directive.ofStatement) := by
  have h := (quick_sort.sort_perm takesPriority_strict
    (g.directives.map Directive.ofStatement).toArray).toList
  rwa [List.toList_toArray] at h

theorem rule_directives_sorted (g : Group) :
    g.rule.directives.Pairwise fun a b => codeRank b ≤ codeRank a := by
  refine (quick_sort.sort_sorted takesPriority_strict _).imp ?_
  intro a b h
  exact takesPriority_false.mp h

/-- The first match of the sorted directives is a best match of the group. -/
theorem find_directive (g : Group) (path : Bytes) :
    match g.rule.directives.find? fun d => d.wildcard.matchPath path with
    | none => matching path g = []
    | some d => Best codeRank (matching path g) d := by
  have hperm := (rule_directives_perm g).filter fun d => d.wildcard.matchPath path
  cases hfind : g.rule.directives.find? fun d => d.wildcard.matchPath path with
  | none =>
    have hnil : (g.rule.directives.filter fun d => d.wildcard.matchPath path) = [] := by
      rw [List.filter_eq_nil_iff]
      exact List.find?_eq_none.mp hfind
    rw [hnil] at hperm
    exact hperm.symm.eq_nil
  | some d => exact (best_of_find (rule_directives_sorted g) hfind).of_perm hperm

theorem matchPath_none {g : Group} {user path : Bytes} (h : g.rule.matchPath user path = none) :
    matchesUser user g.userAgents = false := by
  unfold Rule.matchPath at h
  rw [Option.map_eq_none_iff, List.find?_eq_none] at h
  unfold matchesUser
  rw [List.any_eq_false]
  intro name hname
  exact h (.ofName name) (List.mem_map_of_mem hname)

theorem matchPath_some {g : Group} {user path : Bytes} {ua : UserAgent} {d : Option Directive}
    (h : g.rule.matchPath user path = some (ua, d)) :
    matchesUser user g.userAgents = true ∧
      d = g.rule.directives.find? fun d => d.wildcard.matchPath path := by
  obtain ⟨ua', hfind, heq⟩ := Option.map_eq_some_iff.mp h
  cases heq
  refine ⟨?_, rfl⟩
  obtain ⟨name, hname, rfl⟩ := List.mem_map.mp (List.mem_of_find?_eq_some hfind)
  have huser := List.find?_some hfind
  exact List.any_eq_true.mpr ⟨name, hname, huser⟩

/-! ## All rules -/

/-- The matching directives of the groups that match the user agent. -/
def matchingAll (user path : Bytes) (groups : List Group) : List Directive :=
  (groups.filter fun g => matchesUser user g.userAgents).flatMap (matching path)

/-- What the loop of `FindDirective` has found among some directives. -/
def Finds (directives : List Directive) (found : Found) : Prop :=
  match found.best with
  | none => directives = []
  | some best => Best codeRank directives best.directive

theorem findStep_finds {directives : List Directive} {found : Found} {user path : Bytes}
    (h : Finds directives found) (g : Group) :
    Finds (directives ++ matchingAll user path [g]) (findStep user path found g.rule) := by
  unfold findStep matchingAll
  cases hmatch : g.rule.matchPath user path with
  | none =>
    have hnot := matchPath_none hmatch
    simp only [List.filter_cons, hnot, Bool.false_eq_true, if_false, List.filter_nil,
      List.flatMap_nil, List.append_nil]
    exact h
  | some m =>
    obtain ⟨ua, d⟩ := m
    obtain ⟨huser, hd⟩ := matchPath_some hmatch
    have hfind := find_directive g path
    rw [← hd] at hfind
    simp only [List.filter_cons, huser, if_true, List.filter_nil, List.flatMap_cons,
      List.flatMap_nil, List.append_nil]
    cases d with
    | none =>
      rw [hfind, List.append_nil]
      exact h
    | some d =>
      unfold Finds at h ⊢
      cases hbest : found.best with
      | none =>
        simp only [hbest] at h ⊢
        rw [h]
        exact hfind
      | some best =>
        simp only [hbest] at h ⊢
        split_ifs with hpriority htie
        · rw [takesPriority_iff] at hpriority
          exact h.append_right hfind (Nat.le_of_lt hpriority)
        · simp only [Bool.and_eq_true, Bool.not_eq_true'] at htie
          exact h.append_right hfind (takesPriority_false.mp htie.1.1)
        · rw [Bool.not_eq_true] at hpriority
          exact h.append_left hfind (takesPriority_false.mp hpriority)

theorem foldl_finds {directives : List Directive} {found : Found} (user path : Bytes)
    (groups : List Group) (h : Finds directives found) :
    Finds (directives ++ matchingAll user path groups)
      ((groups.map Group.rule).foldl (findStep user path) found) := by
  induction groups generalizing directives found with
  | nil =>
    change Finds (directives ++ []) found
    rwa [List.append_nil]
  | cons g groups ih =>
    have hsplit : matchingAll user path (g :: groups) =
        matchingAll user path [g] ++ matchingAll user path groups := by
      unfold matchingAll
      rw [← List.flatMap_append, ← List.filter_append]
      rfl
    rw [hsplit, ← List.append_assoc, List.map_cons, List.foldl_cons]
    exact ih (findStep_finds h g)

/-- The code decides by a best one of the directives that apply, in its own order. -/
theorem pathAllowed_finds (groups : List Group) (user path : Bytes) :
    ((applicable groups user path = [] ∧ (pathAllowed (groups.map Group.rule) user path).1 = true) ∨
      ∃ s, Best (fun s => codeRank (.ofStatement s)) (applicable groups user path) s ∧
        (pathAllowed (groups.map Group.rule) user path).1 = decide (s.1 = .allow)) := by
  generalize hdecoded : cString (urlDecode (dropSlash (cString path))) = decoded
  have hall : matchingAll (cString user) decoded groups =
      (applicable groups user path).map Directive.ofStatement := by
    unfold matchingAll applicable matching
    rw [List.map_flatMap, hdecoded]
    congr 1
    funext g
    rw [List.filter_map]
    rfl
  have hfinds : Finds [] (⟨none, 0⟩ : Found) := rfl
  have h := foldl_finds (cString user) decoded groups hfinds
  rw [List.nil_append, hall] at h
  unfold pathAllowed findDirective
  rw [hdecoded]
  unfold Finds at h
  simp only
  cases hbest : ((groups.map Group.rule).foldl (findStep (cString user) decoded) ⟨none, 0⟩).best with
  | none =>
    rw [hbest] at h
    exact Or.inl ⟨List.map_eq_nil_iff.mp h, rfl⟩
  | some best =>
    rw [hbest] at h
    obtain ⟨s, hs, hsd⟩ := List.mem_map.mp h.1
    refine Or.inr ⟨s, ⟨hs, fun e he => ?_⟩, ?_⟩
    · have hle := h.2 _ (List.mem_map_of_mem he)
      rwa [← hsd] at hle
    · simp only [← hsd]
      rfl

/-! ## The decision -/

/-- The most literal statements have `n + 1` literal bytes and no `$`, there are some with `n`
literal bytes and a `$`, and of the two kinds only one has an `Allow`. -/
def Overtaken (statements : List Statement) : Prop :=
  ∃ n, (∃ s ∈ statements, literalCount s = n + 1) ∧ (∀ s ∈ statements, literalCount s ≤ n + 1) ∧
    (∀ s ∈ statements, hasDollar s = true → literalCount s ≤ n) ∧
    (∃ s ∈ statements, hasDollar s = true ∧ literalCount s = n) ∧
    ¬((∃ s ∈ statements, hasDollar s = true ∧ literalCount s = n ∧ s.1 = .allow) ↔
      ∃ s ∈ statements, literalCount s = n + 1 ∧ s.1 = .allow)

/-- The order of the code from a statement. -/
theorem codeRank_eq (s : Statement) : codeRank (.ofStatement s) =
    4 * literalCount s + 6 * (hasDollar s).toNat + (decide (s.1 = .allow)).toNat := by
  rw [codeRank_ofStatement]
  unfold documentedRank
  omega

theorem allow_le_one (s : Statement) : (decide (s.1 = .allow)).toNat ≤ 1 := Bool.toNat_le _

theorem allow_eq_one {s : Statement} : (decide (s.1 = .allow)).toNat = 1 ↔ s.1 = .allow := by
  cases s.1 <;> decide

theorem allow_inj {c d : Statement} :
    (decide (c.1 = .allow)).toNat = (decide (d.1 = .allow)).toNat ↔ c.1 = d.1 := by
  cases c.1 <;> cases d.1 <;> decide

theorem dollar_eq_one {s : Statement} : (hasDollar s).toNat = 1 ↔ hasDollar s = true := by
  cases hasDollar s <;> decide

section Two

variable {statements : List Statement} {c d : Statement}
  (hc : Best (fun s => codeRank (.ofStatement s)) statements c)
  (hd : Best documentedRank statements d)

include hc in
theorem best_code {s : Statement} (hs : s ∈ statements) :
    4 * literalCount s + 6 * (hasDollar s).toNat + (decide (s.1 = .allow)).toNat ≤
      4 * literalCount c + 6 * (hasDollar c).toNat + (decide (c.1 = .allow)).toNat := by
  have hle : codeRank (.ofStatement s) ≤ codeRank (.ofStatement c) := hc.2 s hs
  rwa [codeRank_eq, codeRank_eq] at hle

include hc in
/-- A best one by the code, with a `$`, allows when any like it does. -/
theorem allow_code (hdollar : hasDollar c = true) :
    (∃ s ∈ statements, hasDollar s = true ∧ literalCount s = literalCount c ∧ s.1 = .allow) ↔
      c.1 = .allow := by
  constructor
  · rintro ⟨s, hs, hsd, hsl, hst⟩
    have hle := best_code hc hs
    rw [hsd, hdollar, hsl, allow_eq_one.mpr hst] at hle
    have hone := allow_le_one c
    exact allow_eq_one.mp (by omega)
  · exact fun h => ⟨c, hc.1, hdollar, rfl, h⟩

include hd in
/-- A best one by the header allows when any with as many literal bytes does, if none of them
has a `$`. -/
theorem allow_documented
    (hplain : ∀ s ∈ statements, literalCount s = literalCount d → hasDollar s = false) :
    (∃ s ∈ statements, literalCount s = literalCount d ∧ s.1 = .allow) ↔ d.1 = .allow := by
  constructor
  · rintro ⟨s, hs, hsl, hst⟩
    have hle := hd.2 s hs
    unfold documentedRank at hle
    rw [hplain s hs hsl, hplain d hd.1 rfl, hsl, allow_eq_one.mpr hst] at hle
    have hone := allow_le_one d
    exact allow_eq_one.mp (by omega)
  · exact fun h => ⟨d, hd.1, rfl, h⟩

theorem permission_eq_iff {p q : Permission} : p = q ↔ (p = .allow ↔ q = .allow) := by
  cases p <;> cases q <;> decide

include hc hd in
/-- The best ones by the code and by the header have the same type, unless the one overtakes
the other. -/
theorem same_type_iff : c.1 = d.1 ↔ ¬Overtaken statements := by
  have hdmax {s : Statement} (hs : s ∈ statements) : documentedRank s ≤ documentedRank d := hd.2 s hs
  unfold documentedRank at hdmax
  constructor
  · rintro heq ⟨n, ⟨x, hx, hxl⟩, hmost, hdollars, ⟨y, hy, hyd, hyl⟩, hdiffer⟩
    -- a `$` with `n` literal bytes comes before `n + 1` of them without a `$`
    have hplain {s : Statement} (hs : s ∈ statements) (hsl : literalCount s = n + 1) :
        hasDollar s = false := by
      by_contra hdollar
      have hle := hdollars s hs (Bool.not_eq_false _ ▸ hdollar)
      omega
    have hcode := best_code hc hy
    rw [dollar_eq_one.mpr hyd, hyl] at hcode
    have hcone := allow_le_one c
    have hcd : hasDollar c = true := by
      by_contra hnot
      have hle := hmost c hc.1
      rw [Bool.not_eq_true] at hnot
      rw [hnot] at hcode
      simp only [Bool.toNat_false] at hcode
      omega
    have hcl : literalCount c = n := by
      have hle := hdollars c hc.1 hcd
      rw [dollar_eq_one.mpr hcd] at hcode
      omega
    have hdl : literalCount d = n + 1 := by
      have hle := hmost d hd.1
      have hge := hdmax hx
      have hdone := allow_le_one d
      rw [hxl] at hge
      by_cases hdd : hasDollar d = true
      · have hle' := hdollars d hd.1 hdd
        rw [dollar_eq_one.mpr hdd] at hge
        omega
      · rw [Bool.not_eq_true] at hdd
        rw [hdd, Bool.toNat_false] at hge
        omega
    have hallow := allow_documented hd (fun s hs hsl => hplain hs (hsl.trans hdl))
    have hcallow := allow_code hc hcd
    rw [hdl] at hallow
    rw [hcl] at hcallow
    rw [heq] at hcallow
    exact hdiffer (hcallow.trans hallow.symm)
  · intro hnot
    by_contra hne
    have htypes : (decide (c.1 = .allow)).toNat ≠ (decide (d.1 = .allow)).toNat :=
      fun heq => hne (allow_inj.mp heq)
    have hcode := best_code hc hd.1
    have hdocumented := hdmax hc.1
    have hcone := allow_le_one c
    have hdone := allow_le_one d
    have hce : (hasDollar c).toNat ≤ 1 := Bool.toNat_le _
    have hde : (hasDollar d).toNat ≤ 1 := Bool.toNat_le _
    have hdl : literalCount d = literalCount c + 1 := by omega
    have hcd : hasDollar c = true := dollar_eq_one.mp (by omega)
    have hplain {s : Statement} (hs : s ∈ statements) (hsl : literalCount s = literalCount d) :
        hasDollar s = false := by
      by_contra hdollar
      have hle := hdmax hs
      rw [hsl, dollar_eq_one.mpr (Bool.not_eq_false _ ▸ hdollar)] at hle
      omega
    refine hnot ⟨literalCount c, ⟨d, hd.1, hdl⟩, ?_, ?_, ⟨c, hc.1, hcd, rfl⟩, ?_⟩
    · intro s hs
      have hle := hdmax hs
      omega
    · intro s hs hsd
      have hle := hdmax hs
      rw [dollar_eq_one.mpr hsd] at hle
      omega
    · rw [allow_code hc hcd, ← hdl, allow_documented hd (fun s hs hsl => hplain hs hsl)]
      exact fun heq => hne (permission_eq_iff.mpr heq)

end Two

theorem best_documented_iff {statements : List Statement} {d : Statement} :
    (d ∈ statements ∧ ∀ e ∈ statements, documentedBefore e d = false) ↔
      Best documentedRank statements d := by
  unfold Best
  simp only [← Bool.not_eq_true, documentedBefore_iff, Nat.not_lt]

theorem documentedRank_type {c d : Statement} (h : documentedRank c = documentedRank d) :
    c.1 = d.1 := by
  unfold documentedRank at h
  have hcone := allow_le_one c
  have hdone := allow_le_one d
  exact allow_inj.mp (by omega)

/-- The answer of the header is that of a best one in its order. -/
theorem isAnswer_iff {statements : List Statement} {d : Statement} {allowed : Bool}
    (hd : Best documentedRank statements d) :
    IsAnswer statements allowed ↔ allowed = decide (d.1 = .allow) := by
  constructor
  · rintro (⟨hnil, _⟩ | ⟨c, hc, hbefore, hallowed⟩)
    · rw [hnil] at hd
      exact absurd hd.1 List.not_mem_nil
    · rw [hallowed, documentedRank_type ((best_documented_iff.mp ⟨hc, hbefore⟩).rank_eq hd)]
  · intro hallowed
    obtain ⟨hmem, hbefore⟩ := best_documented_iff.mpr hd
    exact Or.inr ⟨d, hmem, hbefore, hallowed⟩

theorem not_overtaken_nil : ¬Overtaken [] := by
  rintro ⟨n, ⟨s, hs, _⟩, _⟩
  exact absurd hs List.not_mem_nil

theorem isAnswer_pathAllowed_iff (groups : List Group) (user path : Bytes) :
    IsAnswer (applicable groups user path) (pathAllowed (groups.map Group.rule) user path).1 ↔
      ¬Overtaken (applicable groups user path) := by
  rcases pathAllowed_finds groups user path with ⟨hnil, hallowed⟩ | ⟨c, hc, hallowed⟩
  · rw [hnil, hallowed]
    exact iff_of_true (Or.inl ⟨rfl, rfl⟩) not_overtaken_nil
  · obtain ⟨d, hd⟩ : ∃ d, Best documentedRank (applicable groups user path) d :=
      exists_best (List.ne_nil_of_mem hc.1)
    rw [isAnswer_iff hd, hallowed, ← same_type_iff hc hd, decide_eq_decide]
    exact permission_eq_iff.symm

/-! ## The order of the file -/

theorem applicable_perm {groups groups' : List Group} (h : Reordered groups groups')
    (user path : Bytes) :
    (applicable groups user path).Perm (applicable groups' user path) := by
  obtain ⟨moved, hperm, hdirectives⟩ := h
  refine ((hperm.filter _).flatMap_right _).trans ?_
  clear hperm
  unfold applicable
  induction hdirectives with
  | nil => exact List.Perm.refl _
  | @cons g g' gs gs' hg _ ih =>
    obtain ⟨hagents, hperm⟩ := hg
    rw [List.filter_cons, List.filter_cons, hagents]
    split
    · rw [List.flatMap_cons, List.flatMap_cons]
      exact (hperm.filter _).append ih
    · exact ih

/-- The decision does not depend on the order of the groups, or of the directives in one. -/
theorem pathAllowed_reordered {groups groups' : List Group} (h : Reordered groups groups')
    (user path : Bytes) :
    (pathAllowed (groups'.map Group.rule) user path).1 =
      (pathAllowed (groups.map Group.rule) user path).1 := by
  have hperm := applicable_perm h user path
  rcases pathAllowed_finds groups user path with ⟨hnil, hallowed⟩ | ⟨c, hc, hallowed⟩ <;>
    rcases pathAllowed_finds groups' user path with ⟨hnil', hallowed'⟩ | ⟨c', hc', hallowed'⟩
  · rw [hallowed, hallowed']
  · rw [hnil] at hperm
    rw [hperm.symm.eq_nil] at hc'
    exact absurd hc'.1 List.not_mem_nil
  · rw [hnil'] at hperm
    rw [hperm.eq_nil] at hc
    exact absurd hc.1 List.not_mem_nil
  · have heq := (hc.of_perm hperm).rank_eq hc'
    rw [codeRank_eq, codeRank_eq] at heq
    have hcone := allow_le_one c
    have hcone' := allow_le_one c'
    have htype : c.1 = c'.1 := allow_inj.mp (by omega)
    rw [hallowed, hallowed', htype]

/-- The code gives the documented answer, in any order of the file, exactly when no directive
overtakes a longer one by its `$`. -/
theorem decision_is_documented_iff (groups : List Group) (user path : Bytes) :
    (IsAnswer (applicable groups user path) (pathAllowed (groups.map Group.rule) user path).1 ∧
      ∀ groups', Reordered groups groups' →
        (pathAllowed (groups'.map Group.rule) user path).1 =
          (pathAllowed (groups.map Group.rule) user path).1) ↔
      ¬Overtaken (applicable groups user path) := by
  rw [isAnswer_pathAllowed_iff]
  exact and_iff_left (fun groups' h => pathAllowed_reordered h user path)

/-- `User-agent: *`, `Disallow: /*b$` and `Allow: /ab`. -/
def overtakingText : Bytes :=
  [85, 115, 101, 114, 45, 97, 103, 101, 110, 116, 58, 32, 42, 10,
    68, 105, 115, 97, 108, 108, 111, 119, 58, 32, 47, 42, 98, 36, 10,
    65, 108, 108, 111, 119, 58, 32, 47, 97, 98, 10]

/-- The path `/ab` is disallowed, though the header says that the longer `Allow` decides. -/
theorem dollar_overtakes :
    ¬∀ (robotsTxt user path : Bytes),
      IsAnswer (applicable (parseGroups .invalid robotsTxt) user path)
        (pathAllowed ((parseGroups .invalid robotsTxt).map Group.rule) user path).1 := by
  intro h
  have hfalse : (pathAllowed ((parseGroups .invalid overtakingText).map Group.rule) [120]
      [47, 97, 98]).1 = false := by decide +kernel
  have hstatements : applicable (parseGroups .invalid overtakingText) [120] [47, 97, 98] =
      [(.disallow, [47, 42, 98, 36]), (.allow, [47, 97, 98])] := by decide +kernel
  have hanswer := h overtakingText [120] [47, 97, 98]
  rw [hfalse, hstatements] at hanswer
  rcases hanswer with ⟨_, hallowed⟩ | ⟨d, hd, hbefore, hallowed⟩
  · cases hallowed
  · have hlonger := hbefore (.allow, [47, 97, 98]) (by decide)
    rcases List.mem_cons.mp hd with rfl | hd
    · exact absurd hlonger (by decide)
    · rw [List.mem_singleton.mp hd] at hallowed
      exact absurd hallowed (by decide)

end seamus.robots_priority
