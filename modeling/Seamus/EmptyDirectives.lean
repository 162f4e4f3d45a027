-- Empty directives of a robots.txt: `Allow:` and `Disallow:` without an argument. The format
-- that the header names gives them no effect. The code compiles them to an empty pattern, which
-- matches every path.
import Seamus.RobotsPriority

open priority seamus.robots_txt seamus.robots_priority

namespace seamus.empty_directives

/-- The group without its empty directives. A directive that is not there matches no path, and
what it did while the file was read stays: the list of user agents before it is closed. -/
def withoutEmpty (g : Group) : Group :=
  { g with directives := g.directives.filter fun s => s.2 ≠ [] }

/-- The directives that apply and have an argument. -/
def withArgument (statements : List Statement) : List Statement :=
  statements.filter fun s => s.2 ≠ []

/-- A `Disallow` of every path: no literal byte and no final `$`. -/
def ForbidsAll (s : Statement) : Prop :=
  s.1 = .disallow ∧ literalCount s = 0 ∧ hasDollar s = false

/-- What applies are empty `Disallow` directives alone, or an empty `Allow` beside directives
of which each with an argument forbids every path. -/
def EmptyDecides (statements : List Statement) : Prop :=
  (statements ≠ [] ∧ ∀ s ∈ statements, s = (.disallow, [])) ∨
    ((.allow, []) ∈ statements ∧ withArgument statements ≠ [] ∧
      ∀ s ∈ withArgument statements, ForbidsAll s)

/-! ## What applies -/

theorem applicable_withoutEmpty (groups : List Group) (user path : Bytes) :
    applicable (groups.map withoutEmpty) user path =
      withArgument (applicable groups user path) := by
  unfold applicable withArgument
  rw [List.filter_map, List.flatMap_map, List.filter_flatMap]
  congr 1
  funext g
  unfold withoutEmpty
  rw [List.filter_filter, List.filter_filter]
  congr 1
  funext s
  exact Bool.and_comm _ _

theorem mem_withArgument {statements : List Statement} {s : Statement} :
    s ∈ withArgument statements ↔ s ∈ statements ∧ s.2 ≠ [] := by
  unfold withArgument
  rw [List.mem_filter, decide_eq_true_eq]

/-- The order of the code, for a directive. -/
abbrev rank (s : Statement) : Nat := codeRank (.ofStatement s)

theorem rank_eq (s : Statement) : rank s =
    4 * literalCount s + 6 * (hasDollar s).toNat + (decide (s.1 = .allow)).toNat :=
  codeRank_eq s

theorem rank_empty (p : Permission) : rank (p, []) = (decide (p = .allow)).toNat := by
  cases p <;> decide

theorem rank_empty_le {s : Statement} (h : s.2 = []) : rank s ≤ 1 := by
  obtain ⟨p, arg⟩ := s
  cases h
  rw [rank_empty]
  exact Bool.toNat_le _

theorem forbidsAll_iff {s : Statement} : ForbidsAll s ↔ rank s = 0 := by
  have hdollar : (hasDollar s).toNat = 0 ↔ hasDollar s = false := by
    cases hasDollar s <;> decide
  have hallow : (decide (s.1 = .allow)).toNat = 0 ↔ s.1 = .disallow := by
    cases s.1 <;> decide
  unfold ForbidsAll
  rw [rank_eq, ← hdollar, ← hallow]
  omega

/-! ## The decision -/

/-- The answer that a best one of the directives gives, in the order of the code. -/
def Decides (statements : List Statement) (allowed : Bool) : Prop :=
  (statements = [] ∧ allowed = true) ∨
    ∃ s, Best rank statements s ∧ allowed = decide (s.1 = .allow)

/-- Of directives that rank below two, any `Allow` decides. -/
theorem best_allows_iff {statements : List Statement} {c : Statement}
    (hc : Best rank statements c) (hlow : rank c ≤ 1) :
    c.1 = .allow ↔ ∃ s ∈ statements, s.1 = .allow := by
  constructor
  · exact fun h => ⟨c, hc.1, h⟩
  · rintro ⟨s, hs, hallow⟩
    have hle : rank s ≤ rank c := hc.2 s hs
    rw [rank_eq] at hlow
    rw [rank_eq, rank_eq, allow_eq_one.mpr hallow] at hle
    exact allow_eq_one.mp (by omega)

/-- A best one with an argument is also the best of those with an argument. -/
theorem best_withArgument {statements : List Statement} {c : Statement}
    (hc : Best rank statements c) (harg : c.2 ≠ []) : Best rank (withArgument statements) c :=
  ⟨mem_withArgument.mpr ⟨hc.1, harg⟩, fun e he => hc.2 e (mem_withArgument.mp he).1⟩

theorem type_of_rank {c d : Statement} (h : rank c = rank d) : c.1 = d.1 := by
  rw [rank_eq, rank_eq] at h
  have hcone := allow_le_one c
  have hdone := allow_le_one d
  exact allow_inj.mp (by omega)

/-- Directives that are all empty. -/
theorem differs_of_all_empty {statements : List Statement} {c : Statement}
    (hc : Best rank statements c) (hnone : withArgument statements = []) :
    c.1 = .allow ↔ ¬EmptyDecides statements := by
  have hempty {s : Statement} (hs : s ∈ statements) : s.2 = [] := by
    by_contra harg
    have hmem := mem_withArgument.mpr ⟨hs, harg⟩
    rw [hnone] at hmem
    cases hmem
  rw [best_allows_iff hc (rank_empty_le (hempty hc.1))]
  constructor
  · rintro ⟨s, hs, hallow⟩ (⟨_, hall⟩ | ⟨_, hsome, _⟩)
    · rw [hall s hs] at hallow
      cases hallow
    · exact hsome hnone
  · intro hnot
    by_contra hno
    refine hnot (Or.inl ⟨List.ne_nil_of_mem hc.1, fun s hs => ?_⟩)
    obtain ⟨p, arg⟩ := s
    cases p with
    | allow => exact absurd ⟨_, hs, rfl⟩ hno
    | disallow => exact Prod.ext rfl (hempty hs)

/-- Directives of which some have an argument. -/
theorem differs_of_some {statements : List Statement} {c d : Statement}
    (hc : Best rank statements c) (hd : Best rank (withArgument statements) d) :
    c.1 = d.1 ↔ ¬EmptyDecides statements := by
  obtain ⟨hdmem, hdarg⟩ := mem_withArgument.mp hd.1
  have hdle : rank d ≤ rank c := hc.2 d hdmem
  constructor
  · rintro htype (⟨_, hall⟩ | ⟨hallow, _, hforbid⟩)
    · rw [hall d hdmem] at hdarg
      exact hdarg rfl
    · -- the empty `Allow` ranks above all that have an argument
      have hzero := forbidsAll_iff.mp (hforbid d hd.1)
      have hone : rank (.allow, []) ≤ rank c := hc.2 _ hallow
      rw [rank_empty] at hone
      have hdisallow := (hforbid d hd.1).1
      rw [hdisallow] at htype
      have hcempty : c.2 = [] := by
        by_contra harg
        have hle := hd.2 c (best_withArgument hc harg).1
        rw [hzero] at hle
        exact absurd (Nat.le_trans hone hle) (by decide)
      have hcallow := (best_allows_iff hc (rank_empty_le hcempty)).mpr ⟨_, hallow, rfl⟩
      rw [hcallow] at htype
      cases htype
  · intro hnot
    by_cases harg : c.2 = []
    · have hclow := rank_empty_le harg
      by_contra hne
      -- then the empty one ranks above the one with an argument
      have hrank : rank d ≠ rank c := fun heq => hne (type_of_rank heq.symm)
      have hzero : rank d = 0 := by omega
      have hone : rank c = 1 := by omega
      obtain ⟨p, arg⟩ := c
      cases harg
      refine hnot (Or.inr ⟨?_, List.ne_nil_of_mem hd.1, fun s hs => ?_⟩)
      · cases p with
        | allow => exact hc.1
        | disallow => exact absurd hone (by decide)
      · exact forbidsAll_iff.mpr (Nat.le_zero.mp (hzero ▸ hd.2 s hs))
    · exact type_of_rank ((best_withArgument hc harg).rank_eq hd)

theorem decides_same_iff {statements : List Statement} {allowed allowed' : Bool}
    (h : Decides statements allowed) (h' : Decides (withArgument statements) allowed') :
    allowed = allowed' ↔ ¬EmptyDecides statements := by
  rcases h with ⟨rfl, rfl⟩ | ⟨c, hc, rfl⟩
  · rcases h' with ⟨_, rfl⟩ | ⟨d, hd, _⟩
    · refine iff_of_true rfl ?_
      rintro (⟨hsome, _⟩ | ⟨hmem, _⟩)
      · exact hsome rfl
      · cases hmem
    · cases hd.1
  · rcases h' with ⟨hnone, rfl⟩ | ⟨d, hd, rfl⟩
    · rw [decide_eq_true_eq]
      exact differs_of_all_empty hc hnone
    · rw [decide_eq_decide, ← permission_eq_iff]
      exact differs_of_some hc hd

theorem pathAllowed_decides (groups : List Group) (user path : Bytes) :
    Decides (applicable groups user path) (pathAllowed (groups.map Group.rule) user path).1 :=
  pathAllowed_finds groups user path

/-- The empty directives of a file have no effect exactly when they do not decide. -/
theorem empty_directives_have_no_effect_iff (uninitialized : StatementType)
    (robotsTxt user path : Bytes) :
    let groups := parseGroups uninitialized robotsTxt
    (pathAllowed (groups.map Group.rule) user path).1 =
        (pathAllowed ((groups.map withoutEmpty).map Group.rule) user path).1 ↔
      ¬EmptyDecides (applicable groups user path) := by
  intro groups
  have h' := pathAllowed_decides (groups.map withoutEmpty) user path
  rw [applicable_withoutEmpty] at h'
  exact decides_same_iff (pathAllowed_decides groups user path) h'

/-- `User-agent: *` and an empty `Disallow:`. -/
def emptyDisallowText : Bytes :=
  [85, 115, 101, 114, 45, 97, 103, 101, 110, 116, 58, 32, 42, 10,
    68, 105, 115, 97, 108, 108, 111, 119, 58, 10]

/-- The site that forbids nothing is closed. -/
theorem empty_disallow_closes_the_site :
    ¬∀ robotsTxt user path : Bytes,
      (pathAllowed ((parseGroups .invalid robotsTxt).map Group.rule) user path).1 =
        (pathAllowed (((parseGroups .invalid robotsTxt).map withoutEmpty).map Group.rule)
          user path).1 := by
  intro h
  have hclosed := h emptyDisallowText [120] [47, 97]
  have hcode : (pathAllowed ((parseGroups .invalid emptyDisallowText).map Group.rule) [120]
      [47, 97]).1 = false := by decide +kernel
  have hformat : (pathAllowed (((parseGroups .invalid emptyDisallowText).map withoutEmpty).map
      Group.rule) [120] [47, 97]).1 = true := by decide +kernel
  rw [hcode, hformat] at hclosed
  cases hclosed

end seamus.empty_directives
