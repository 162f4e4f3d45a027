-- How often a text was supplied for a URL, and what `anchor_freqs` says of it.
import Seamus.AnchorTable
import Mathlib.Data.List.Dedup
import Mathlib.Data.List.Flatten
import Mathlib.Data.List.Perm.Subperm

open seamus.url_store
open seamus.anchor_table (Inverse inverse_noAnchors findAnchorId_inverse findAnchorId_keeps)

namespace seamus.anchor_frequency

/-! ## The sequence of calls -/

/-- A store, and the requests that reached a record of it: it was there, or they made it. -/
structure Ledger where
  store : UrlStore
  reached : List Request

def call (p : Policy) (l : Ledger) (c : Request × Nat) : Ledger :=
  let store := (updateUrl p c.1 c.2 l.store).2
  if (findUrlData (lowercaseUrl c.1.url) store).isSome then ⟨store, l.reached ++ [c.1]⟩
  else ⟨store, l.reached⟩

/-- Calls of `updateUrl` on an empty store, each a request with its priority. -/
def run (p : Policy) (calls : List (Request × Nat)) : Ledger := calls.foldl (call p) ⟨emptyStore, []⟩

theorem foldl_call_store (p : Policy) (calls : List (Request × Nat)) (l : Ledger) :
    (calls.foldl (call p) l).store =
      calls.foldl (fun s c => (updateUrl p c.1 c.2 s).2) l.store := by
  induction calls generalizing l with
  | nil => rfl
  | cons c calls ih =>
    rw [List.foldl_cons, List.foldl_cons, ih]
    unfold call
    dsimp only
    split_ifs <;> rfl

/-- The ledger is only kept: the store is the one that the calls leave. -/
theorem run_store (p : Policy) (calls : List (Request × Nat)) :
    (run p calls).store = calls.foldl (fun s c => (updateUrl p c.1 c.2 s).2) emptyStore :=
  foldl_call_store p calls _

def requestsOf (url : Bytes) (reached : List Request) : List Request :=
  reached.filter fun r => lowercaseUrl r.url = url

/-- The texts that were supplied for a URL, as often as they were. -/
def supplied (url : Bytes) (l : Ledger) : List Bytes :=
  (requestsOf url l.reached).flatMap Request.anchorText

/-- The texts that a URL sees, in calls that reach its record or not. -/
def textsFor (url : Bytes) (calls : List (Request × Nat)) : List Bytes :=
  (calls.filter fun c => lowercaseUrl c.1.url = url).flatMap fun c => c.1.anchorText

/-- `anchor_freqs[id(text)]`, 0 for a text without an id. -/
def freqOf (text : Bytes) (t : AnchorTable) (data : UrlData) : UInt32 :=
  match t.anchorToId.lookup text with
  | none => 0
  | some id => (data.anchorFreqs.lookup (UInt32.ofNat id)).getD 0

/-! ## What the loop over the texts relies on -/

/-- Every id of a record stands for a text that its URL may see, and so does every text of
the table for one of the pool. -/
structure Tables (pool : List Bytes) (seenBy : Bytes → List Bytes) (s : UrlStore) : Prop where
  inverse : Inverse s.toAnchorTable
  pool : s.idToAnchor ⊆ pool
  keys : ∀ url data, findUrlData url s = some data → ∀ id ∈ data.anchorFreqs.keys,
    ∃ text ∈ seenBy url, s.idToAnchor[id.toNat]? = some text

variable {pool : List Bytes} {seenBy : Bytes → List Bytes} {s : UrlStore} {url : Bytes}
  {data : UrlData}

theorem length_le_dedup {α : Type} [DecidableEq α] {xs ys : List α} (hn : xs.Nodup)
    (hsub : xs ⊆ ys) : xs.length ≤ ys.dedup.length :=
  (List.subperm_of_subset hn fun _ hx => List.mem_dedup.mpr (hsub hx)).length_le

theorem Tables.size (h : Tables pool seenBy s) (hpool : pool.dedup.length < UInt32.size) :
    s.idToAnchor.length < UInt32.size :=
  Nat.lt_of_le_of_lt (length_le_dedup h.inverse.nodup h.pool) hpool

/-- A record has no more ids than its URL may see texts. -/
theorem Tables.ids_le (h : Tables pool seenBy s) (hfind : findUrlData url s = some data) :
    data.anchorFreqs.keys.length ≤ (seenBy url).dedup.length := by
  let textOf (id : UInt32) : Bytes := (s.idToAnchor[id.toNat]?).getD []
  have hn : (data.anchorFreqs.keys.map textOf).Nodup := by
    apply List.Nodup.map_on ?_ data.anchorFreqs.keys_nodup
    intro i hi j hj heq
    obtain ⟨text, _, hat⟩ := h.keys url data hfind i hi
    obtain ⟨text', _, hat'⟩ := h.keys url data hfind j hj
    have hsame : text = text' := by simpa [textOf, hat, hat'] using heq
    rw [← hsame] at hat'
    exact UInt32.toNat_inj.mp (h.inverse.injective hat hat')
  have hsub : data.anchorFreqs.keys.map textOf ⊆ seenBy url := by
    intro text htext
    obtain ⟨id, hid, rfl⟩ := List.mem_map.mp htext
    obtain ⟨text, hsees, hat⟩ := h.keys url data hfind id hid
    simpa [textOf, hat] using hsees
  have hle := length_le_dedup hn hsub
  rwa [List.length_map] at hle

theorem Tables.hasRoom (h : Tables pool seenBy s) (hfind : findUrlData url s = some data)
    (hcap : (seenBy url).dedup.length < MAX_ANCHORS_PER_URL) :
    anchorsFull (findUrlData url s) = false := by
  have hle := h.ids_le hfind
  rw [AList.keys, List.keys, List.length_map] at hle
  rw [hfind]
  exact decide_eq_false (Nat.not_le_of_lt (Nat.lt_of_le_of_lt hle hcap))

/-! ## One text -/

/-- With room, `findAnchorId` gives the text an id and moves no other. -/
theorem findAnchorId_room {t : AnchorTable} {urlData : Option UrlData} (h : Inverse t)
    (text : Bytes) (hroom : anchorsFull urlData = false) :
    ∃ id, (findAnchorId text urlData t).1 = UInt32.ofNat id ∧
      (findAnchorId text urlData t).2.anchorToId.lookup text = some id ∧
      (∀ other, other ≠ text →
        (findAnchorId text urlData t).2.anchorToId.lookup other = t.anchorToId.lookup other) ∧
      (t.anchorToId.lookup text = some id ∨
        t.anchorToId.lookup text = none ∧ id = t.idToAnchor.length) := by
  rcases findAnchorId_cases text urlData t with ⟨id, hknown, heq⟩ | ⟨_, hfull, _⟩ | ⟨hnew, _, heq⟩
  · exact ⟨id, by rw [heq], by rw [heq]; exact hknown, fun _ _ => by rw [heq], Or.inl hknown⟩
  · rw [hfull] at hroom; cases hroom
  · refine ⟨t.idToAnchor.length, by rw [heq], ?_, ?_, Or.inr ⟨hnew, rfl⟩⟩
    · rw [heq, h.size]
      exact AList.lookup_insert _
    · intro other hother
      rw [heq]
      exact AList.lookup_insert_ne hother

/-- The new table gives the frequencies of the old one, for a record whose ids have texts. -/
theorem freqOf_findAnchorId {t : AnchorTable} {urlData : Option UrlData} (h : Inverse t)
    (text : Bytes) (hroom : anchorsFull urlData = false)
    (hsize : t.idToAnchor.length < UInt32.size)
    (hids : ∀ id ∈ data.anchorFreqs.keys, id.toNat < t.idToAnchor.length) (other : Bytes) :
    freqOf other (findAnchorId text urlData t).2 data = freqOf other t data := by
  obtain ⟨id, _, hlook, hothers, hwhere⟩ := findAnchorId_room h text hroom
  unfold freqOf
  by_cases hother : other = text
  · subst hother
    rw [hlook]
    rcases hwhere with hknown | ⟨hnew, hlast⟩
    · rw [hknown]
    · have habsent : UInt32.ofNat id ∉ data.anchorFreqs.keys := by
        intro hmem
        have hlt := hids _ hmem
        rw [hlast, UInt32.toNat_ofNat_of_lt' hsize] at hlt
        exact absurd hlt (Nat.lt_irrefl _)
      rw [hnew]
      dsimp only
      rw [AList.lookup_eq_none.mpr habsent]
      rfl
  · rw [hothers other hother]

/-- Counting a text changes its own frequency only. -/
theorem freqOf_countAnchor {t : AnchorTable} (h : Inverse t)
    (hsize : t.idToAnchor.length ≤ UInt32.size) (isNew : Bool) {text : Bytes} {id : Nat}
    (hlook : t.anchorToId.lookup text = some id) (data : UrlData) (other : Bytes) :
    freqOf other t (countAnchor isNew (UInt32.ofNat id) data) =
      if other = text then (if isNew then 1 else freqOf text t data + 1)
      else freqOf other t data := by
  have hlt {name : Bytes} {j : Nat} (hj : t.anchorToId.lookup name = some j) :
      j < UInt32.size :=
    Nat.lt_of_lt_of_le (List.getElem?_eq_some_iff.mp ((h name j).mp hj)).1 hsize
  unfold freqOf countAnchor
  by_cases hother : other = text
  · rw [if_pos hother, hother, hlook]
    dsimp only
    rw [AList.lookup_insert]
    rfl
  · rw [if_neg hother]
    cases hlook' : t.anchorToId.lookup other with
    | none => rfl
    | some j =>
      have hne : UInt32.ofNat j ≠ UInt32.ofNat id := by
        intro heq
        have hij : j = id := by
          have hnat := congrArg UInt32.toNat heq
          rwa [UInt32.toNat_ofNat_of_lt' (hlt hlook'), UInt32.toNat_ofNat_of_lt' (hlt hlook)] at hnat
        rw [hij] at hlook'
        have hsame := ((h other id).mp hlook').symm.trans ((h text id).mp hlook)
        exact hother (Option.some.inj hsame)
      dsimp only
      rw [AList.lookup_insert_ne hne]

/-- What `addAnchor` does for a URL with room: it counts the text, and all else stays. -/
structure Counts (isNew : Bool) (url text : Bytes) (s s' : UrlStore) : Prop where
  record : ∀ data, findUrlData url s = some data → ∃ data', findUrlData url s' = some data' ∧
    ∀ other, freqOf other s'.toAnchorTable data' =
      if other = text then (if isNew then 1 else freqOf text s.toAnchorTable data + 1)
      else freqOf other s.toAnchorTable data
  others : ∀ other, other ≠ url → findUrlData other s' = findUrlData other s ∧
    ∀ data, findUrlData other s = some data → ∀ name,
      freqOf name s'.toAnchorTable data = freqOf name s.toAnchorTable data

theorem Tables.ids_lt (h : Tables pool seenBy s) (hfind : findUrlData url s = some data) :
    ∀ id ∈ data.anchorFreqs.keys, id.toNat < s.idToAnchor.length := by
  intro id hid
  obtain ⟨text, _, hat⟩ := h.keys url data hfind id hid
  exact (List.getElem?_eq_some_iff.mp hat).1

theorem ofNat_ne_noAnchorId {id : Nat} (h : id + 1 < UInt32.size) :
    UInt32.ofNat id ≠ noAnchorId := by
  intro heq
  have hnat := congrArg UInt32.toNat heq
  rw [UInt32.toNat_ofNat_of_lt' (Nat.lt_of_succ_lt h)] at hnat
  rw [hnat] at h
  exact absurd h (by decide)

/-- With room, `addAnchor` writes the record with the text counted. -/
theorem addAnchor_room (h : Inverse s.toAnchorTable) (isNew : Bool) (text : Bytes)
    (hfind : findUrlData url s = some data) (hroom : anchorsFull (findUrlData url s) = false)
    (hsize : (findAnchorId text (findUrlData url s) s.toAnchorTable).2.idToAnchor.length <
      UInt32.size) :
    ∃ id, (findAnchorId text (findUrlData url s) s.toAnchorTable).2.anchorToId.lookup text =
        some id ∧
      addAnchor isNew url s text = setUrlData url (countAnchor isNew (UInt32.ofNat id) data)
        (setAnchors (findAnchorId text (findUrlData url s) s.toAnchorTable).2 s) := by
  obtain ⟨id, hid, hlook, _⟩ := findAnchorId_room h text hroom
  have hat := (findAnchorId_inverse h text (findUrlData url s) text id).mp hlook
  have hlt : id + 1 < UInt32.size :=
    Nat.lt_of_le_of_lt (List.getElem?_eq_some_iff.mp hat).1 hsize
  refine ⟨id, hlook, ?_⟩
  unfold addAnchor
  dsimp only
  rw [hid, if_neg (ofNat_ne_noAnchorId hlt), findUrlData_anchors, hfind]
  rfl

theorem findAnchorId_subset {t : AnchorTable} {urlData : Option UrlData} {text : Bytes}
    (h : t.idToAnchor ⊆ pool) (htext : text ∈ pool) :
    (findAnchorId text urlData t).2.idToAnchor ⊆ pool := by
  rcases findAnchorId_cases text urlData t with ⟨_, _, heq⟩ | ⟨_, _, heq⟩ | ⟨_, _, heq⟩
  · rw [heq]; exact h
  · rw [heq]; exact h
  · rw [heq]
    exact List.append_subset.mpr ⟨h, List.cons_subset.mpr ⟨htext, List.nil_subset _⟩⟩

/-- A text keeps its place. -/
theorem findAnchorId_at {t : AnchorTable} {urlData : Option UrlData} {i : Nat} {name : Bytes}
    (text : Bytes) (hat : t.idToAnchor[i]? = some name) :
    (findAnchorId text urlData t).2.idToAnchor[i]? = some name := by
  obtain ⟨more, hmore⟩ := findAnchorId_keeps text urlData t
  rw [← hmore, List.getElem?_append_left (List.getElem?_eq_some_iff.mp hat).1]
  exact hat

section

variable (hpool : pool.dedup.length < UInt32.size)
  (hcap : ∀ url, (seenBy url).dedup.length < MAX_ANCHORS_PER_URL)

include hpool hcap

theorem Tables.addAnchor (h : Tables pool seenBy s) (isNew : Bool) {text : Bytes}
    (htext : text ∈ pool) (hsees : text ∈ seenBy url) (hfind : findUrlData url s = some data) :
    Tables pool seenBy (url_store.addAnchor isNew url s text) ∧
      Counts isNew url text s (url_store.addAnchor isNew url s text) := by
  have hroom := h.hasRoom hfind (hcap url)
  have hinverse := findAnchorId_inverse h.inverse text (findUrlData url s)
  have hsub : (findAnchorId text (findUrlData url s) s.toAnchorTable).2.idToAnchor ⊆ pool :=
    findAnchorId_subset h.pool htext
  have hsize := Nat.lt_of_le_of_lt (length_le_dedup hinverse.nodup hsub) hpool
  have hfreq := freqOf_findAnchorId h.inverse text hroom (h.size hpool) (h.ids_lt hfind)
  obtain ⟨id, hlook, heq⟩ := addAnchor_room h.inverse isNew text hfind hroom hsize
  have hat := (hinverse text id).mp hlook
  rw [heq]
  refine ⟨⟨hinverse, hsub, ?_⟩, ?_, ?_⟩
  · intro other data' hfind' j hj
    by_cases hother : other = url
    · subst hother
      rw [findUrlData_setUrlData] at hfind'
      cases hfind'
      rcases List.mem_cons.mp ((AList.keys_insert data.anchorFreqs) ▸ hj) with rfl | hold
      · refine ⟨text, hsees, ?_⟩
        have hlt := (List.getElem?_eq_some_iff.mp hat).1
        rw [UInt32.toNat_ofNat_of_lt' (Nat.lt_trans hlt hsize)]
        exact hat
      · obtain ⟨name, hname, hold⟩ := h.keys other data hfind j (List.mem_of_mem_erase hold)
        exact ⟨name, hname, findAnchorId_at text hold⟩
    · rw [findUrlData_setUrlData_of_ne _ _ hother, findUrlData_anchors] at hfind'
      obtain ⟨name, hname, hold⟩ := h.keys other data' hfind' j hj
      exact ⟨name, hname, findAnchorId_at text hold⟩
  · intro data' hfind'
    cases hfind.symm.trans hfind'
    refine ⟨_, findUrlData_setUrlData _ _ _, ?_⟩
    intro other
    rw [setUrlData_anchors]
    refine (freqOf_countAnchor hinverse (Nat.le_of_lt hsize) isNew hlook data other).trans ?_
    rw [hfreq text, hfreq other]
  · intro other hother
    rw [findUrlData_setUrlData_of_ne _ _ hother, findUrlData_anchors]
    refine ⟨rfl, ?_⟩
    intro data' hfind' name
    exact freqOf_findAnchorId h.inverse text hroom (h.size hpool) (h.ids_lt hfind') name

end

/-! ## The loop over the texts of a request -/

/-- The frequencies after the loop: a new record gives each of its texts a 1. -/
def counted (isNew : Bool) (texts : List Bytes) (freq : Bytes → UInt32) (text : Bytes) : UInt32 :=
  if isNew then (if text ∈ texts then 1 else freq text)
  else freq text + UInt32.ofNat (texts.count text)

theorem counted_cons (isNew : Bool) (text : Bytes) (texts : List Bytes)
    {freq freq' : Bytes → UInt32}
    (h : ∀ other, freq' other =
      if other = text then (if isNew then 1 else freq text + 1) else freq other) (other : Bytes) :
    counted isNew texts freq' other = counted isNew (text :: texts) freq other := by
  unfold counted
  rw [h other]
  cases isNew with
  | true =>
    by_cases hother : other = text <;> simp [hother]
  | false =>
    simp only [Bool.false_eq_true, if_false]
    by_cases hother : other = text
    · rw [if_pos hother, hother, List.count_cons_self, UInt32.ofNat_add, UInt32.add_assoc,
        UInt32.add_comm (UInt32.ofNat _)]
      rfl
    · rw [if_neg hother, List.count_cons_of_ne (Ne.symm hother)]

/-- What a call does to the frequencies of its URL and to those of others. -/
structure Recounts (isNew : Bool) (url : Bytes) (texts : List Bytes) (s s' : UrlStore) : Prop where
  record : ∀ data, findUrlData url s = some data → ∃ data', findUrlData url s' = some data' ∧
    ∀ text, freqOf text s'.toAnchorTable data' =
      counted isNew texts (fun name => freqOf name s.toAnchorTable data) text
  others : ∀ other, other ≠ url → findUrlData other s' = findUrlData other s ∧
    ∀ data, findUrlData other s = some data → ∀ text,
      freqOf text s'.toAnchorTable data = freqOf text s.toAnchorTable data

theorem Tables.addAnchors (hpool : pool.dedup.length < UInt32.size)
    (hcap : ∀ url, (seenBy url).dedup.length < MAX_ANCHORS_PER_URL) (isNew : Bool)
    (texts : List Bytes) (htexts : texts ⊆ pool) (hsees : texts ⊆ seenBy url)
    (h : Tables pool seenBy s) (hfind : findUrlData url s = some data) :
    Tables pool seenBy (texts.foldl (url_store.addAnchor isNew url) s) ∧
      Recounts isNew url texts s (texts.foldl (url_store.addAnchor isNew url) s) := by
  induction texts generalizing s data with
  | nil =>
    refine ⟨h, ?_, ?_⟩
    · intro data hfind
      refine ⟨data, hfind, ?_⟩
      intro text
      cases isNew <;> simp [counted]
    · intro other _
      exact ⟨rfl, fun _ _ _ => rfl⟩
  | cons text texts ih =>
    obtain ⟨htext, htexts⟩ := List.cons_subset.mp htexts
    obtain ⟨hsee, hsees⟩ := List.cons_subset.mp hsees
    obtain ⟨hone, hcounts⟩ := h.addAnchor hpool hcap isNew htext hsee hfind
    obtain ⟨data', hfind', hfreq'⟩ := hcounts.record data hfind
    obtain ⟨hall, hrest⟩ := ih htexts hsees hone hfind'
    refine ⟨hall, ?_, ?_⟩
    · intro data₀ hfind₀
      cases hfind.symm.trans hfind₀
      obtain ⟨data'', hfind'', hfreq''⟩ := hrest.record data' hfind'
      refine ⟨data'', hfind'', ?_⟩
      intro other
      exact (hfreq'' other).trans (counted_cons isNew text texts hfreq' other)
    · intro other hother
      obtain ⟨hsame, hkept⟩ := hcounts.others other hother
      obtain ⟨hsame', hkept'⟩ := hrest.others other hother
      refine ⟨hsame'.trans hsame, ?_⟩
      intro data₀ hfind₀ name
      exact (hkept' data₀ (hsame.trans hfind₀) name).trans (hkept data₀ hfind₀ name)

/-! ## One call -/

/-- A record that is written with the ids that it had leaves the tables as they were. -/
theorem Tables.setUrlData (h : Tables pool seenBy s) {data : UrlData}
    (hids : ∀ id ∈ data.anchorFreqs.keys, ∃ text ∈ seenBy url, s.idToAnchor[id.toNat]? = some text) :
    Tables pool seenBy (url_store.setUrlData url data s) := by
  refine ⟨h.inverse, h.pool, ?_⟩
  intro other data' hfind id hid
  by_cases hother : other = url
  · rw [hother, findUrlData_setUrlData] at hfind
    cases hfind
    rw [hother]
    exact hids id hid
  · rw [findUrlData_setUrlData_of_ne _ _ hother] at hfind
    exact h.keys other data' hfind id hid

/-- The value of `anchor_freqs` after the requests that reached a record, the first of which
made it. -/
def expected (text : Bytes) : List Request → UInt32
  | [] => 0
  | r :: rs => UInt32.ofNat
      (min 1 (r.anchorText.count text) + (rs.flatMap Request.anchorText).count text)

structure Law (pool : List Bytes) (seenBy : Bytes → List Bytes) (l : Ledger) : Prop where
  tables : Tables pool seenBy l.store
  unreached : ∀ url, findUrlData url l.store = none → requestsOf url l.reached = []
  reached : ∀ url data, findUrlData url l.store = some data → requestsOf url l.reached ≠ []
  freqs : ∀ url data, findUrlData url l.store = some data → ∀ text,
    freqOf text l.store.toAnchorTable data = expected text (requestsOf url l.reached)

theorem requestsOf_append (url : Bytes) (reached : List Request) (r : Request) :
    requestsOf url (reached ++ [r]) =
      requestsOf url reached ++ if lowercaseUrl r.url = url then [r] else [] := by
  unfold requestsOf
  rw [List.filter_append]
  by_cases h : lowercaseUrl r.url = url <;> simp [h]

/-- One more request for a URL that has a record already. -/
theorem expected_append (text : Bytes) {rs : List Request} (h : rs ≠ []) (r : Request) :
    expected text (rs ++ [r]) = expected text rs + UInt32.ofNat (r.anchorText.count text) := by
  cases rs with
  | nil => exact absurd rfl h
  | cons first rs =>
    simp only [List.cons_append, expected, List.flatMap_append, List.count_append,
      List.flatMap_singleton]
    rw [← UInt32.ofNat_add, Nat.add_assoc]

theorem expected_first (text : Bytes) (r : Request) :
    expected text [r] = if text ∈ r.anchorText then 1 else 0 := by
  simp only [expected]
  by_cases h : text ∈ r.anchorText
  · have hpos : 1 ≤ r.anchorText.count text := List.count_pos_iff.mpr h
    rw [if_pos h, Nat.min_eq_left hpos]
    rfl
  · rw [if_neg h, List.count_eq_zero_of_not_mem h]
    rfl

theorem freqOf_firstData (text : Bytes) (t : AnchorTable) (r : Request) :
    freqOf text t (firstData r) = 0 := by
  unfold freqOf
  cases t.anchorToId.lookup text <;> simp [firstData, newUrlData]

/-- The record of a call is written, its texts are counted, and the request is noted. -/
theorem Law.count {l : Ledger} (h : Law pool seenBy l) (hpool : pool.dedup.length < UInt32.size)
    (hcap : ∀ url, (seenBy url).dedup.length < MAX_ANCHORS_PER_URL) {r : Request}
    (htexts : r.anchorText ⊆ pool) (hsees : r.anchorText ⊆ seenBy (lowercaseUrl r.url))
    (isNew : Bool) (data : UrlData) {s : UrlStore}
    (hanchors : s.toAnchorTable = l.store.toAnchorTable)
    (hothers : ∀ url, url ≠ lowercaseUrl r.url → findUrlData url s = findUrlData url l.store)
    (hfind : findUrlData (lowercaseUrl r.url) s = some data)
    (hids : ∀ id ∈ data.anchorFreqs.keys, ∃ text ∈ seenBy (lowercaseUrl r.url),
      l.store.idToAnchor[id.toNat]? = some text)
    (hcounted : ∀ text, counted isNew r.anchorText
        (fun name => freqOf name l.store.toAnchorTable data) text =
      expected text (requestsOf (lowercaseUrl r.url) l.reached ++ [r])) :
    Law pool seenBy ⟨addAnchors isNew r s, l.reached ++ [r]⟩ := by
  have htables : Tables pool seenBy s := by
    refine ⟨hanchors ▸ h.tables.inverse, hanchors ▸ h.tables.pool, ?_⟩
    intro url data' hfind' id hid
    rw [hanchors]
    by_cases hurl : url = lowercaseUrl r.url
    · subst hurl
      cases hfind.symm.trans hfind'
      exact hids id hid
    · rw [hothers url hurl] at hfind'
      exact h.tables.keys url data' hfind' id hid
  obtain ⟨hall, hrecounts⟩ := htables.addAnchors hpool hcap isNew r.anchorText htexts hsees hfind
  obtain ⟨data', hfind', hfreq⟩ := hrecounts.record data hfind
  have hrequests {url : Bytes} (hurl : url ≠ lowercaseUrl r.url) :
      requestsOf url (l.reached ++ [r]) = requestsOf url l.reached := by
    rw [requestsOf_append, if_neg (Ne.symm hurl), List.append_nil]
  have hstays {url : Bytes} (hurl : url ≠ lowercaseUrl r.url) :
      findUrlData url (addAnchors isNew r s) = findUrlData url l.store :=
    (hrecounts.others url hurl).1.trans (hothers url hurl)
  refine ⟨hall, ?_, ?_, ?_⟩
  · intro url hnone
    by_cases hurl : url = lowercaseUrl r.url
    · subst hurl
      exact absurd (hfind'.symm.trans hnone) (by simp)
    · rw [hrequests hurl]
      exact h.unreached url ((hstays hurl).symm.trans hnone)
  · intro url data₀ hfind₀
    by_cases hurl : url = lowercaseUrl r.url
    · subst hurl
      simp [requestsOf_append]
    · rw [hrequests hurl]
      exact h.reached url data₀ ((hstays hurl).symm.trans hfind₀)
  · intro url data₀ hfind₀ text
    by_cases hurl : url = lowercaseUrl r.url
    · subst hurl
      cases hfind'.symm.trans hfind₀
      rw [requestsOf_append, if_pos rfl, ← hcounted text, ← hanchors]
      exact hfreq text
    · have hold := (hstays hurl).symm.trans hfind₀
      rw [hrequests hurl, ← h.freqs url data₀ hold text, ← hanchors]
      exact (hrecounts.others url hurl).2 data₀ ((hothers url hurl).trans hold) text

theorem Law.call (p : Policy) {l : Ledger} (h : Law pool seenBy l)
    (hpool : pool.dedup.length < UInt32.size)
    (hcap : ∀ url, (seenBy url).dedup.length < MAX_ANCHORS_PER_URL) (c : Request × Nat)
    (htexts : c.1.anchorText ⊆ pool) (hsees : c.1.anchorText ⊆ seenBy (lowercaseUrl c.1.url)) :
    Law pool seenBy (anchor_frequency.call p l c) := by
  obtain ⟨r, priority⟩ := c
  unfold anchor_frequency.call
  dsimp only
  rcases updateUrl_cases p r priority l.store with ⟨data, hfind, heq⟩ | ⟨hfind, heq⟩ | ⟨hfind, heq⟩
  · have hlaw := h.count hpool hcap htexts hsees false (merge r data)
      (s := setUrlData (lowercaseUrl r.url) (merge r data) (seen l.store)) rfl
      (fun url hurl => findUrlData_setUrlData_of_ne _ _ hurl) (findUrlData_setUrlData _ _ _)
      (h.tables.keys _ data hfind) ?_
    · rw [heq, if_pos]
      · exact hlaw
      · by_contra hnone
        exact absurd (hlaw.unreached _ (Option.not_isSome_iff_eq_none.mp hnone))
          (by simp [requestsOf_append])
    · intro text
      rw [expected_append text (h.reached _ data hfind), ← h.freqs _ data hfind text]
      rfl
  · rw [heq, if_neg (by simp [hfind])]
    exact ⟨⟨h.tables.inverse, h.tables.pool, h.tables.keys⟩, h.unreached, h.reached, h.freqs⟩
  · have hlaw := h.count hpool hcap htexts hsees true (firstData r)
      (s := setUrlData (lowercaseUrl r.url) (firstData r)
        { seen l.store with uniqueUrlCount := l.store.uniqueUrlCount + 1 }) rfl
      (fun url hurl => findUrlData_setUrlData_of_ne _ _ hurl) (findUrlData_setUrlData _ _ _)
      ?_ ?_
    · rw [heq, if_pos]
      · exact hlaw
      · by_contra hnone
        exact absurd (hlaw.unreached _ (Option.not_isSome_iff_eq_none.mp hnone))
          (by simp [requestsOf_append])
    · intro id hid
      simp [firstData, newUrlData] at hid
    · intro text
      rw [h.unreached _ hfind, List.nil_append, expected_first]
      simp only [counted, freqOf_firstData, if_true]

theorem law_start : Law pool seenBy ⟨emptyStore, []⟩ := by
  refine ⟨⟨inverse_noAnchors, List.nil_subset _, ?_⟩, fun _ _ => rfl, ?_, ?_⟩
  · intro url data hfind
    simp [findUrlData, emptyStore] at hfind
  · intro url data hfind
    simp [findUrlData, emptyStore] at hfind
  · intro url data hfind
    simp [findUrlData, emptyStore] at hfind

theorem foldl_call_law (p : Policy) (hpool : pool.dedup.length < UInt32.size)
    (hcap : ∀ url, (seenBy url).dedup.length < MAX_ANCHORS_PER_URL) (calls : List (Request × Nat))
    (hcalls : ∀ c ∈ calls, c.1.anchorText ⊆ pool ∧ c.1.anchorText ⊆ seenBy (lowercaseUrl c.1.url))
    {l : Ledger} (h : Law pool seenBy l) : Law pool seenBy (calls.foldl (call p) l) := by
  induction calls generalizing l with
  | nil => exact h
  | cons c calls ih =>
    obtain ⟨htexts, hsees⟩ := hcalls c List.mem_cons_self
    apply ih
    · intro d hd
      exact hcalls d (List.mem_cons_of_mem c hd)
    · exact h.call p hpool hcap c htexts hsees

/-! ## The law of the frequencies -/

/-- The ids fit their type, and every URL sees fewer than the most texts that it can have. -/
def Small (calls : List (Request × Nat)) : Prop :=
  (calls.flatMap fun c => c.1.anchorText).dedup.length < UInt32.size ∧
    ∀ url, (textsFor url calls).dedup.length < MAX_ANCHORS_PER_URL

theorem run_law (p : Policy) {calls : List (Request × Nat)} (h : Small calls) :
    Law (calls.flatMap fun c => c.1.anchorText) (fun url => textsFor url calls) (run p calls) := by
  apply foldl_call_law p h.1 h.2
  · intro c hc
    have hmem : c ∈ calls.filter fun d => lowercaseUrl d.1.url = lowercaseUrl c.1.url := by
      simp [hc]
    exact ⟨fun text ht => List.mem_flatMap.mpr ⟨c, hc, ht⟩,
      fun text ht => List.mem_flatMap.mpr ⟨c, hmem, ht⟩⟩
  · exact law_start

/-- The request that made the record of a URL has no text twice, and no text came too often
for the type of its frequency. -/
def Countable (url : Bytes) (l : Ledger) : Prop :=
  (∀ r ∈ (requestsOf url l.reached).head?, r.anchorText.Nodup) ∧
    ∀ text, (supplied url l).count text < UInt32.size

/-- The frequencies of a record are the numbers of times that its texts were supplied. -/
def CountsAll (url : Bytes) (l : Ledger) (data : UrlData) : Prop :=
  ∀ text, (freqOf text l.store.toAnchorTable data).toNat = (supplied url l).count text

theorem Law.countsAll_iff {l : Ledger} (h : Law pool seenBy l)
    (hfind : findUrlData url l.store = some data) :
    CountsAll url l data ↔ Countable url l := by
  obtain ⟨r, rs, hrs⟩ := List.exists_cons_of_ne_nil (h.reached url data hfind)
  have hsupplied (text : Bytes) : (supplied url l).count text =
      r.anchorText.count text + (rs.flatMap Request.anchorText).count text := by
    unfold supplied
    rw [hrs, List.flatMap_cons, List.count_append]
  have hfreq (text : Bytes) : (freqOf text l.store.toAnchorTable data).toNat =
      (min 1 (r.anchorText.count text) + (rs.flatMap Request.anchorText).count text) %
        UInt32.size := by
    rw [h.freqs url data hfind text, hrs]
    exact UInt32.toNat_ofNat'
  unfold CountsAll Countable
  rw [hrs, List.head?_cons]
  constructor
  · intro hall
    have hlt (text : Bytes) : (supplied url l).count text < UInt32.size := by
      rw [← hall text]
      exact UInt32.toNat_lt_size _
    refine ⟨?_, hlt⟩
    intro r' hr'
    cases hr'
    rw [List.nodup_iff_count_le_one]
    intro text
    -- What is left of a text that came twice is less than what was supplied.
    have heq := hall text
    have hmod := Nat.mod_le (min 1 (r.anchorText.count text) +
      (rs.flatMap Request.anchorText).count text) UInt32.size
    rw [hfreq, hsupplied] at heq
    omega
  · rintro ⟨hfirst, hlt⟩ text
    have hone := List.nodup_iff_count_le_one.mp (hfirst r rfl) text
    have hsize := hlt text
    rw [hsupplied] at hsize
    rw [hfreq, hsupplied, Nat.min_eq_right hone, Nat.mod_eq_of_lt hsize]

/-- The frequencies of a URL count every text that was supplied for it exactly when the
request that made its record has no text twice and no count overflows. Then only what was
supplied matters, not how it was split into requests. -/
theorem anchor_freqs_count_what_was_supplied (p : Policy) (calls : List (Request × Nat))
    (hsmall : Small calls) (url : Bytes) (data : UrlData)
    (hfind : findUrlData url (run p calls).store = some data) :
    (CountsAll url (run p calls) data ↔ Countable url (run p calls)) ∧
      ∀ (calls' : List (Request × Nat)) (data' : UrlData), Small calls' →
        findUrlData url (run p calls').store = some data' →
        Countable url (run p calls) → Countable url (run p calls') →
        (supplied url (run p calls)).Perm (supplied url (run p calls')) →
        ∀ text, freqOf text (run p calls).store.toAnchorTable data =
          freqOf text (run p calls').store.toAnchorTable data' := by
  have hiff := (run_law p hsmall).countsAll_iff hfind
  refine ⟨hiff, ?_⟩
  intro calls' data' hsmall' hfind' hcount hcount' hperm text
  have hall := hiff.mpr hcount text
  have hall' := ((run_law p hsmall').countsAll_iff hfind').mpr hcount' text
  rw [hperm.count_eq text, ← hall'] at hall
  exact UInt32.toNat_inj.mp hall

/-- A few texts are too few to fill a record. -/
theorem small_of_length {calls : List (Request × Nat)}
    (h : (calls.flatMap fun c => c.1.anchorText).length < MAX_ANCHORS_PER_URL) : Small calls := by
  have hle (texts : List Bytes) : texts.dedup.length ≤ texts.length :=
    (List.dedup_sublist texts).length_le
  refine ⟨?_, ?_⟩
  · exact Nat.lt_of_le_of_lt (hle _) (Nat.lt_trans h (by decide))
  · intro url
    have hsub : (textsFor url calls).length ≤ (calls.flatMap fun c => c.1.anchorText).length := by
      unfold textsFor
      exact (List.filter_sublist.flatMap _).length_le
    exact Nat.lt_of_le_of_lt (Nat.le_trans (hle _) hsub) h

/-- The texts x, y, x for the URL a, in two requests. -/
def twoRequests : List (Request × Nat) :=
  [(⟨[97], [[120], [121]], 1, 0, 0⟩, 0), (⟨[65], [[120]], 1, 0, 0⟩, 0)]

/-- The same texts in three requests. -/
def threeRequests : List (Request × Nat) :=
  [(⟨[97], [[120]], 1, 0, 0⟩, 0), (⟨[97], [[120]], 1, 0, 0⟩, 0), (⟨[97], [[121]], 1, 0, 0⟩, 0)]

theorem countable_of_length {l : Ledger}
    (hfirst : ∀ r ∈ (requestsOf url l.reached).head?, r.anchorText.Nodup)
    (hlen : (supplied url l).length < UInt32.size) : Countable url l :=
  ⟨hfirst, fun _ => Nat.lt_of_le_of_lt List.count_le_length hlen⟩

theorem splitting_two_requests_keeps_the_frequencies :
    ∃ data data', findUrlData [97] (run plainPolicy twoRequests).store = some data ∧
      findUrlData [97] (run plainPolicy threeRequests).store = some data' ∧
      CountsAll [97] (run plainPolicy twoRequests) data ∧
      ∀ text, freqOf text (run plainPolicy twoRequests).store.toAnchorTable data =
        freqOf text (run plainPolicy threeRequests).store.toAnchorTable data' := by
  have htwo : (findUrlData [97] (run plainPolicy twoRequests).store).isSome := by decide +kernel
  have hthree : (findUrlData [97] (run plainPolicy threeRequests).store).isSome := by
    decide +kernel
  obtain ⟨data, hfind⟩ := Option.isSome_iff_exists.mp htwo
  obtain ⟨data', hfind'⟩ := Option.isSome_iff_exists.mp hthree
  have hcount : Countable [97] (run plainPolicy twoRequests) :=
    countable_of_length (by decide +kernel) (by decide +kernel)
  have hcount' : Countable [97] (run plainPolicy threeRequests) :=
    countable_of_length (by decide +kernel) (by decide +kernel)
  obtain ⟨hiff, hsame⟩ := anchor_freqs_count_what_was_supplied plainPolicy twoRequests
    (small_of_length (by decide)) [97] data hfind
  exact ⟨data, data', hfind, hfind', hiff.mpr hcount, hsame threeRequests data'
    (small_of_length (by decide)) hfind' hcount hcount' (by decide +kernel)⟩

/-- The text x twice in the first request for a URL is counted once. -/
theorem a_repeated_first_text_is_counted_once :
    Small [(⟨[97], [[120], [120]], 1, 0, 0⟩, 0)] ∧
      ∃ data, findUrlData [97] (run plainPolicy [(⟨[97], [[120], [120]], 1, 0, 0⟩, 0)]).store =
          some data ∧
        ¬CountsAll [97] (run plainPolicy [(⟨[97], [[120], [120]], 1, 0, 0⟩, 0)]) data := by
  refine ⟨small_of_length (by decide), ?_⟩
  have hfreq : (findUrlData [97] (run plainPolicy [(⟨[97], [[120], [120]], 1, 0, 0⟩, 0)]).store).map
      (freqOf [120] (run plainPolicy [(⟨[97], [[120], [120]], 1, 0, 0⟩, 0)]).store.toAnchorTable) =
        some 1 := by decide +kernel
  have hsupplied : (supplied [97] (run plainPolicy [(⟨[97], [[120], [120]], 1, 0, 0⟩, 0)])).count
      [120] = 2 := by decide +kernel
  obtain ⟨data, hfind, hone⟩ := Option.map_eq_some_iff.mp hfreq
  refine ⟨data, hfind, ?_⟩
  intro hall
  have heq := hall [120]
  rw [hone, hsupplied] at heq
  exact absurd heq (by decide)

end seamus.anchor_frequency
