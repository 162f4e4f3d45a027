-- How many anchor texts a record can come to hold. `findAnchorId` looks at the
-- size of the record only for a text that no URL has had before.
import Seamus.UrlStore

open seamus.url_store

namespace seamus.anchor_cap

def idCount (data : UrlData) : Nat := data.anchorFreqs.entries.length

/-- No record has more ids than `MAX_ANCHORS_PER_URL`. -/
def Capped (s : UrlStore) : Prop :=
  ∀ url data, findUrlData url s = some data → idCount data ≤ MAX_ANCHORS_PER_URL

/-! ## The condition on the calls -/

def idsOf (url : Bytes) (s : UrlStore) : List UInt32 :=
  ((findUrlData url s).getD newUrlData).anchorFreqs.keys

/-- A text that another URL brought in finds a free place in the record, or its own. -/
def Fits (url text : Bytes) (s : UrlStore) : Prop :=
  match s.anchorToId.lookup text with
  | none => True
  | some id => anchorsFull (findUrlData url s) = false ∨ UInt32.ofNat id = noAnchorId ∨
      UInt32.ofNat id ∈ idsOf url s

/-- Every turn of the loop over the texts fits, each in the store that it finds. -/
def LoopFits (isNew : Bool) (url : Bytes) : List Bytes → UrlStore → Prop
  | [], _ => True
  | text :: texts, s => Fits url text s ∧ LoopFits isNew url texts (addAnchor isNew url s text)

def CallFits (p : Policy) (r : Request) (priority : Nat) (s : UrlStore) : Prop :=
  match lookUp p r priority s with
  | (.known, s) => LoopFits false (lowercaseUrl r.url) r.anchorText s
  | (.dropped, _) => True
  | (.unknown, s) =>
    match addUrlUnlocked r s with
    | (false, _) => True
    | (true, s) => LoopFits true (lowercaseUrl r.url) r.anchorText s

def run (p : Policy) (calls : List (Request × Nat)) (s : UrlStore) : UrlStore :=
  calls.foldl (fun s c => (updateUrl p c.1 c.2 s).2) s

def AllFit (p : Policy) : List (Request × Nat) → UrlStore → Prop
  | [], _ => True
  | c :: calls, s => CallFits p c.1 c.2 s ∧ AllFit p calls (updateUrl p c.1 c.2 s).2

/-! ## Records only grow -/

/-- No record is lost, and none loses an id. -/
def Grows (s s' : UrlStore) : Prop :=
  ∀ url data, findUrlData url s = some data →
    ∃ data', findUrlData url s' = some data' ∧ idCount data ≤ idCount data'

variable {p : Policy} {s s' s'' : UrlStore} {url : Bytes} {data : UrlData}

theorem Grows.refl (s : UrlStore) : Grows s s := fun _ data h => ⟨data, h, Nat.le_refl _⟩

theorem Grows.trans (h : Grows s s') (h' : Grows s' s'') : Grows s s'' := by
  intro url data hfind
  obtain ⟨data', hfind', hle⟩ := h url data hfind
  obtain ⟨data'', hfind'', hle'⟩ := h' url data' hfind'
  exact ⟨data'', hfind'', Nat.le_trans hle hle'⟩

theorem Grows.capped (h : Grows s s') (hcap : Capped s') : Capped s := by
  intro url data hfind
  obtain ⟨data', hfind', hle⟩ := h url data hfind
  exact Nat.le_trans hle (hcap url data' hfind')

/-- A record is written that has at least the ids of the old one. -/
theorem grows_setUrlData (hsame : ∀ url, findUrlData url s' = findUrlData url s)
    (h : ∀ old, findUrlData url s = some old → idCount old ≤ idCount data) :
    Grows s (setUrlData url data s') := by
  intro other old hfind
  by_cases hother : other = url
  · subst hother
    exact ⟨data, findUrlData_setUrlData _ _ _, h old hfind⟩
  · refine ⟨old, ?_, Nat.le_refl _⟩
    rw [findUrlData_setUrlData_of_ne _ _ hother, hsame, hfind]

/-- Writing a record keeps the cap exactly when the record does. -/
theorem capped_setUrlData (hsame : ∀ url, findUrlData url s' = findUrlData url s)
    (hcap : Capped s) :
    Capped (setUrlData url data s') ↔ idCount data ≤ MAX_ANCHORS_PER_URL := by
  constructor
  · intro h
    exact h url data (findUrlData_setUrlData _ _ _)
  · intro hle other data' hfind
    by_cases hother : other = url
    · rw [hother, findUrlData_setUrlData] at hfind
      cases hfind
      exact hle
    · rw [findUrlData_setUrlData_of_ne _ _ hother, hsame] at hfind
      exact hcap other data' hfind

theorem idCount_countAnchor (isNew : Bool) (id : UInt32) (data : UrlData) :
    idCount (countAnchor isNew id data) =
      if id ∈ data.anchorFreqs.keys then idCount data else idCount data + 1 := by
  have hkeys (data : UrlData) : idCount data = data.anchorFreqs.keys.length := by
    rw [AList.keys, List.keys, List.length_map]
    rfl
  rw [hkeys, hkeys data]
  unfold countAnchor
  dsimp only
  rw [AList.keys_insert, List.length_cons]
  split_ifs with hmem
  · have hpos := List.length_pos_of_mem hmem
    rw [List.length_erase_of_mem hmem]
    omega
  · rw [List.erase_of_not_mem hmem]

/-! ## One turn of the loop -/

/-- A turn leaves the records alone, or counts the id that the text has now. -/
theorem addAnchor_record (isNew : Bool) (text : Bytes) (hfind : findUrlData url s = some data) :
    let id := (findAnchorId text (findUrlData url s) s.toAnchorTable).1
    let t := (findAnchorId text (findUrlData url s) s.toAnchorTable).2
    addAnchor isNew url s text = if id = noAnchorId then setAnchors t s
      else setUrlData url (countAnchor isNew id data) (setAnchors t s) := by
  unfold addAnchor
  dsimp only
  rw [findUrlData_anchors, hfind]
  rfl

theorem grows_addAnchor (isNew : Bool) (text : Bytes) (hfind : findUrlData url s = some data) :
    Grows s (addAnchor isNew url s text) := by
  rw [addAnchor_record isNew text hfind]
  split_ifs
  · exact Grows.refl s
  · apply grows_setUrlData (fun _ => rfl)
    intro old hold
    cases hfind.symm.trans hold
    rw [idCount_countAnchor]
    split_ifs <;> omega

theorem anchorsFull_some (data : UrlData) :
    anchorsFull (some data) = false ↔ idCount data < MAX_ANCHORS_PER_URL := by
  unfold anchorsFull
  rw [decide_eq_false_iff_not, Nat.not_le]
  rfl

/-- A turn keeps the cap exactly when its text fits. -/
theorem capped_addAnchor_iff (hcap : Capped s) (isNew : Bool) (text : Bytes)
    (hfind : findUrlData url s = some data) :
    Capped (addAnchor isNew url s text) ↔ Fits url text s := by
  have hle := hcap url data hfind
  have hsame (t : AnchorTable) : Capped (setAnchors t s) := hcap
  have hset (id : UInt32) (t : AnchorTable) :
      Capped (setUrlData url (countAnchor isNew id data) (setAnchors t s)) ↔
        id ∈ data.anchorFreqs.keys ∨ idCount data < MAX_ANCHORS_PER_URL := by
    refine Iff.trans (capped_setUrlData (fun other => ?_) hcap) ?_
    · exact findUrlData_anchors other t s
    · rw [idCount_countAnchor]
      split_ifs with hmem
      · simp [hmem, hle]
      · rw [or_iff_right hmem]
        exact Nat.succ_le_iff
  rw [addAnchor_record isNew text hfind]
  unfold Fits
  rcases findAnchorId_cases text (findUrlData url s) s.toAnchorTable with
    ⟨id, hknown, heq⟩ | ⟨hnew, _, heq⟩ | ⟨hnew, hroom, heq⟩
  · simp only [heq, hknown]
    split_ifs with hid
    · simp [hsame, hid]
    · rw [hset, hfind, anchorsFull_some]
      simp [hid, idsOf, hfind, or_comm]
  · simp only [heq, hnew, if_true]
    simp [hsame]
  · rw [hfind, anchorsFull_some] at hroom
    simp only [heq, hnew]
    split_ifs with hid
    · simp [hsame]
    · rw [hset]
      simp [hroom]

/-! ## One call -/

theorem grows_loop (isNew : Bool) (texts : List Bytes) (hfind : findUrlData url s = some data) :
    Grows s (texts.foldl (addAnchor isNew url) s) := by
  induction texts generalizing s data with
  | nil => exact Grows.refl s
  | cons text texts ih =>
    have hone := grows_addAnchor isNew text hfind
    obtain ⟨data', hfind', _⟩ := hone url data hfind
    exact hone.trans (ih hfind')

theorem capped_loop_iff (hcap : Capped s) (isNew : Bool) (texts : List Bytes)
    (hfind : findUrlData url s = some data) :
    Capped (texts.foldl (addAnchor isNew url) s) ↔ LoopFits isNew url texts s := by
  induction texts generalizing s data with
  | nil => exact ⟨fun _ => trivial, fun _ => hcap⟩
  | cons text texts ih =>
    obtain ⟨data', hfind', _⟩ := grows_addAnchor isNew text hfind url data hfind
    have hone := capped_addAnchor_iff hcap isNew text hfind
    simp only [List.foldl_cons, LoopFits]
    constructor
    · intro hlast
      -- The record never shrinks, so the turn before kept the cap too.
      have hfirst := (grows_loop isNew texts hfind').capped hlast
      exact ⟨hone.mp hfirst, (ih hfirst hfind').mp hlast⟩
    · rintro ⟨hfits, hrest⟩
      exact (ih (hone.mpr hfits) hfind').mpr hrest

theorem grows_updateUrl (p : Policy) (r : Request) (priority : Nat) (s : UrlStore) :
    Grows s (updateUrl p r priority s).2 := by
  rcases updateUrl_cases p r priority s with ⟨data, hfind, heq⟩ | ⟨_, heq⟩ | ⟨hfind, heq⟩
  · rw [heq]
    refine Grows.trans ?_ (grows_loop false r.anchorText (findUrlData_setUrlData _ _ _))
    apply grows_setUrlData (fun _ => rfl)
    intro old hold
    cases hfind.symm.trans hold
    exact Nat.le_refl _
  · rw [heq]
    exact Grows.refl s
  · rw [heq]
    refine Grows.trans ?_ (grows_loop true r.anchorText (findUrlData_setUrlData _ _ _))
    apply grows_setUrlData (fun _ => rfl)
    intro old hold
    rw [hfind] at hold
    cases hold

theorem capped_updateUrl_iff (hcap : Capped s) (r : Request) (priority : Nat) :
    Capped (updateUrl p r priority s).2 ↔ CallFits p r priority s := by
  unfold updateUrl CallFits
  rcases lookUp_cases p r priority s with ⟨data, hfind, heq⟩ | ⟨_, _, heq⟩ | ⟨hfind, _, heq⟩
  · simp only [heq]
    apply capped_loop_iff ?_ false r.anchorText (findUrlData_setUrlData _ _ _)
    refine (capped_setUrlData (fun other => ?_) hcap).mpr ?_
    · exact findUrlData_seen other s
    · exact hcap _ data hfind
  · simp only [heq]
    exact ⟨fun _ => trivial, fun _ => hcap⟩
  · simp only [heq, addUrlUnlocked, findUrlData_seen, hfind]
    apply capped_loop_iff ?_ true r.anchorText (findUrlData_setUrlData _ _ _)
    refine (capped_setUrlData (fun other => ?_) hcap).mpr ?_
    · exact findUrlData_seen other s
    · exact Nat.zero_le _

/-! ## Every sequence of calls -/

theorem grows_run (p : Policy) (calls : List (Request × Nat)) (s : UrlStore) :
    Grows s (run p calls s) := by
  induction calls generalizing s with
  | nil => exact Grows.refl s
  | cons c calls ih => exact (grows_updateUrl p c.1 c.2 s).trans (ih _)

theorem capped_run_iff (hcap : Capped s) (calls : List (Request × Nat)) :
    Capped (run p calls s) ↔ AllFit p calls s := by
  induction calls generalizing s with
  | nil => exact ⟨fun _ => trivial, fun _ => hcap⟩
  | cons c calls ih =>
    have hone := capped_updateUrl_iff (p := p) hcap c.1 c.2
    simp only [run, List.foldl_cons, AllFit]
    constructor
    · intro hlast
      have hfirst := (grows_run p calls _).capped hlast
      exact ⟨hone.mp hfirst, (ih hfirst).mp hlast⟩
    · rintro ⟨hfits, hrest⟩
      exact (ih (hone.mpr hfits)).mpr hrest

theorem capped_emptyStore : Capped emptyStore := by
  intro url data hfind
  simp [findUrlData, emptyStore] at hfind

/-- From the empty store the cap holds exactly when no full record counts a text that it
does not have and that another URL brought into the table. -/
theorem records_are_capped_iff_texts_fit (p : Policy) (calls : List (Request × Nat)) :
    Capped (run p calls emptyStore) ↔ AllFit p calls emptyStore :=
  capped_run_iff capped_emptyStore calls

/-- The URL a gets 64 texts, the URL b the text x, and then a the text x too. -/
def fullThenKnown : List (Request × Nat) :=
  [(⟨[97], (List.range 64).map fun n => [UInt8.ofNat n], 1, 0, 0⟩, 0),
    (⟨[98], [[120]], 1, 0, 0⟩, 0), (⟨[97], [[120]], 1, 0, 0⟩, 0)]

theorem a_known_text_passes_the_cap :
    ∃ data, findUrlData [97] (run plainPolicy fullThenKnown emptyStore) = some data ∧
      idCount data = MAX_ANCHORS_PER_URL + 1 := by
  have hcount : (findUrlData [97] (run plainPolicy fullThenKnown emptyStore)).map idCount =
      some (MAX_ANCHORS_PER_URL + 1) := by decide +kernel
  exact Option.map_eq_some_iff.mp hcount

end seamus.anchor_cap
