-- The laws of `UrlStore`: the URL table in its shards, the table of anchor
-- texts, and the sections of `updateUrl` that a lock holds together.
import Seamus.Basic
import Mathlib.Data.List.AList
import Mathlib.Tactic.SplitIfs

namespace seamus.url_store

def URL_NUM_SHARDS : Nat := 64

def MAX_STORE_URLS : Nat := 1048576 * 4

def MAX_ANCHORS_PER_URL : Nat := 64

def PRIORITY_BUCKETS : Nat := 8

/-! ## The source functions -/

structure UrlData where
  /-- Anchor text id to frequency. -/
  anchorFreqs : AList (fun _ : UInt32 => UInt32)
  numEncountered : UInt32
  seedDistance : UInt16
  domainDist : UInt16
  eot : UInt16
  title : Bytes
  eod : UInt16
  crawled : Bool
  deriving DecidableEq

/-- `UrlData{}`. -/
def newUrlData : UrlData := ⟨∅, 0, 0, 0, 0, [], 0, false⟩

/-- The two tables that `global_mtx` guards. -/
structure AnchorTable where
  anchorToId : AList (fun _ : Bytes => Nat)
  idToAnchor : List Bytes
  deriving DecidableEq

structure UrlStore extends AnchorTable where
  shards : Nat → AList (fun _ : Bytes => UrlData)
  uniqueUrlCount : Nat
  totalUrlCount : Nat

def noAnchors : AnchorTable := ⟨∅, []⟩

def emptyStore : UrlStore := ⟨noAnchors, fun _ => ∅, 0, 0⟩

structure Request where
  url : Bytes
  anchorText : List Bytes
  numEncountered : UInt32
  seedListUrlHops : UInt16
  seedListDomainHops : UInt16
  deriving DecidableEq, Repr

/-- What the store asks of other parts: the list of blocked keywords and the
score of a URL, which is floating point arithmetic. -/
structure Policy where
  blockedUrlKeywords : List Bytes
  getPriorityBucket : Bytes → UInt16 → UInt16 → Nat

/-- Nothing is blocked, and every URL comes first. -/
def plainPolicy : Policy := ⟨[], fun _ _ _ => 0⟩

def lowercaseUrl (url : Bytes) : Bytes := url.map tolower

/-- `DefaultHash<string>`. -/
def hash (data : Bytes) : UInt64 :=
  data.foldl (fun h b => (h ^^^ b.toUInt64) * 1099511628211) 14695981039346656037

def shardOf (url : Bytes) : Nat := (hash url).toNat % URL_NUM_SHARDS

def urlContainsCi (needle haystack : Bytes) : Bool :=
  haystack.tails.any fun s => (needle.map tolower).isPrefixOf (s.map tolower)

def isNsfwUrl (p : Policy) (url : Bytes) : Bool :=
  p.blockedUrlKeywords.any fun k => urlContainsCi k url

def priorityOf (p : Policy) (r : Request) : Nat :=
  p.getPriorityBucket r.url r.seedListUrlHops r.seedListDomainHops

def findUrlData (url : Bytes) (s : UrlStore) : Option UrlData :=
  (s.shards (shardOf url)).lookup url

/-- `url_data[url] = data`. -/
def setUrlData (url : Bytes) (data : UrlData) (s : UrlStore) : UrlStore :=
  { s with shards :=
      Function.update s.shards (shardOf url) ((s.shards (shardOf url)).insert url data) }

/-- The bits of the `int` -1. -/
def noAnchorId : UInt32 := 4294967295

/-- `url_data && url_data->anchor_freqs.size() >= MAX_ANCHORS_PER_URL`. -/
def anchorsFull (urlData : Option UrlData) : Bool :=
  match urlData with
  | none => false
  | some data => MAX_ANCHORS_PER_URL ≤ data.anchorFreqs.entries.length

/-- `findAnchorId`, under `global_mtx`: the bits of the `int` that it returns. -/
def findAnchorId (anchorText : Bytes) (urlData : Option UrlData) (t : AnchorTable) :
    UInt32 × AnchorTable :=
  match t.anchorToId.lookup anchorText with
  | none =>
    if anchorsFull urlData then (noAnchorId, t)
    else
      let idToAnchor := t.idToAnchor ++ [anchorText]
      (UInt32.ofNat (idToAnchor.length - 1),
        ⟨t.anchorToId.insert anchorText t.anchorToId.entries.length, idToAnchor⟩)
  | some id => (UInt32.ofNat id, t)

/-- `anchor_freqs[anchor_id] = 1` for a new URL, `anchor_freqs[anchor_id]++` for a known one. -/
def countAnchor (isNew : Bool) (id : UInt32) (data : UrlData) : UrlData :=
  let freq := if isNew then 1 else (data.anchorFreqs.lookup id).getD 0 + 1
  { data with anchorFreqs := data.anchorFreqs.insert id freq }

def setAnchors (t : AnchorTable) (s : UrlStore) : UrlStore := { s with toAnchorTable := t }

/-- One turn of the loop over the anchor texts of a URL, here in lower case. -/
def addAnchor (isNew : Bool) (url : Bytes) (s : UrlStore) (anchorText : Bytes) : UrlStore :=
  let (id, t) := findAnchorId anchorText (findUrlData url s) s.toAnchorTable
  let s := setAnchors t s
  if id = noAnchorId then s
  else setUrlData url (countAnchor isNew id ((findUrlData url s).getD newUrlData)) s

/-- The counters of a known URL. -/
def merge (r : Request) (data : UrlData) : UrlData :=
  { data with
    numEncountered := data.numEncountered + r.numEncountered
    seedDistance := min data.seedDistance r.seedListUrlHops
    domainDist := min data.domainDist r.seedListDomainHops }

/-- The counters of a new URL. -/
def firstData (r : Request) : UrlData :=
  { newUrlData with
    numEncountered := r.numEncountered
    seedDistance := r.seedListUrlHops
    domainDist := r.seedListDomainHops }

inductive Found where
  | known | dropped | unknown
  deriving DecidableEq, Repr

/-- `total_url_count.fetch_add(1)`. -/
def seen (s : UrlStore) : UrlStore := { s with totalUrlCount := s.totalUrlCount + 1 }

/-- `updateUrl` from the lock of the shard to its loop or to `addUrl_unlocked`. -/
def lookUp (p : Policy) (r : Request) (priority : Nat) (s : UrlStore) : Found × UrlStore :=
  let s := seen s
  match findUrlData (lowercaseUrl r.url) s with
  | none =>
    if priority ≥ PRIORITY_BUCKETS then (.dropped, s)
    else if isNsfwUrl p (lowercaseUrl r.url) then (.dropped, s)
    else if s.uniqueUrlCount ≥ MAX_STORE_URLS then (.dropped, s)
    else (.unknown, s)
  | some data => (.known, setUrlData (lowercaseUrl r.url) (merge r data) s)

/-- `addUrl_unlocked` up to its loop. -/
def addUrlUnlocked (r : Request) (s : UrlStore) : Bool × UrlStore :=
  match findUrlData (lowercaseUrl r.url) s with
  | some _ => (false, s)
  | none =>
    (true, setUrlData (lowercaseUrl r.url) (firstData r)
      { s with uniqueUrlCount := s.uniqueUrlCount + 1 })

def addAnchors (isNew : Bool) (r : Request) (s : UrlStore) : UrlStore :=
  r.anchorText.foldl (addAnchor isNew (lowercaseUrl r.url)) s

/-- `updateUrl` as one thread sees it. -/
def updateUrl (p : Policy) (r : Request) (priority : Nat) (s : UrlStore) : Bool × UrlStore :=
  match lookUp p r priority s with
  | (.known, s) => (false, addAnchors false r s)
  | (.dropped, s) => (false, s)
  | (.unknown, s) =>
    match addUrlUnlocked r s with
    | (false, s) => (false, s)
    | (true, s) => (true, addAnchors true r s)

/-! ## The laws of the URL table -/

@[simp] theorem findUrlData_setUrlData (url : Bytes) (data : UrlData) (s : UrlStore) :
    findUrlData url (setUrlData url data s) = some data := by
  simp [findUrlData, setUrlData]

theorem findUrlData_set_ne_none (url : Bytes) (data : UrlData) (s : UrlStore) :
    findUrlData url (setUrlData url data s) ≠ none := by
  rw [findUrlData_setUrlData]
  exact Option.some_ne_none _

theorem findUrlData_setUrlData_of_ne {url other : Bytes} (data : UrlData) (s : UrlStore)
    (h : other ≠ url) : findUrlData other (setUrlData url data s) = findUrlData other s := by
  unfold findUrlData setUrlData
  by_cases hs : shardOf other = shardOf url
  · simp only [hs, Function.update_self]
    exact AList.lookup_insert_ne h
  · simp only [Function.update_of_ne hs]

@[simp] theorem setAnchors_anchors (t : AnchorTable) (s : UrlStore) :
    (setAnchors t s).toAnchorTable = t := rfl

@[simp] theorem findUrlData_anchors (url : Bytes) (t : AnchorTable) (s : UrlStore) :
    findUrlData url (setAnchors t s) = findUrlData url s := rfl

@[simp] theorem findUrlData_seen (url : Bytes) (s : UrlStore) :
    findUrlData url (seen s) = findUrlData url s := rfl

/-- The counters and the anchor texts have no part in a look-up. -/
theorem findUrlData_mk (url : Bytes) (t : AnchorTable) (s : UrlStore) (unique total : Nat) :
    findUrlData url ⟨t, s.shards, unique, total⟩ = findUrlData url s := rfl

@[simp] theorem seen_uniqueUrlCount (s : UrlStore) :
    (seen s).uniqueUrlCount = s.uniqueUrlCount := rfl

@[simp] theorem setUrlData_anchors (url : Bytes) (data : UrlData) (s : UrlStore) :
    (setUrlData url data s).toAnchorTable = s.toAnchorTable := rfl

@[simp] theorem setUrlData_uniqueUrlCount (url : Bytes) (data : UrlData) (s : UrlStore) :
    (setUrlData url data s).uniqueUrlCount = s.uniqueUrlCount := rfl

/-- A write in a shard leaves the others as they are. -/
theorem setUrlData_shards_of_ne {url : Bytes} (data : UrlData) (s : UrlStore) {shard : Nat}
    (h : shard ≠ shardOf url) : (setUrlData url data s).shards shard = s.shards shard :=
  Function.update_of_ne h _ _

@[simp] theorem setUrlData_shards_self (url : Bytes) (data : UrlData) (s : UrlStore) :
    (setUrlData url data s).shards (shardOf url) = (s.shards (shardOf url)).insert url data :=
  Function.update_self _ _ _

/-! ## The laws of the table of anchor texts -/

/-- All that `findAnchorId` can do: the text is known, there is no room, or it is new. -/
theorem findAnchorId_cases (text : Bytes) (urlData : Option UrlData) (t : AnchorTable) :
    (∃ id, t.anchorToId.lookup text = some id ∧
      findAnchorId text urlData t = (UInt32.ofNat id, t)) ∨
    (t.anchorToId.lookup text = none ∧ anchorsFull urlData = true ∧
      findAnchorId text urlData t = (noAnchorId, t)) ∨
    (t.anchorToId.lookup text = none ∧ anchorsFull urlData = false ∧
      findAnchorId text urlData t = (UInt32.ofNat t.idToAnchor.length,
        ⟨t.anchorToId.insert text t.anchorToId.entries.length, t.idToAnchor ++ [text]⟩)) := by
  unfold findAnchorId
  cases h : t.anchorToId.lookup text with
  | some id => exact Or.inl ⟨id, rfl, rfl⟩
  | none =>
    cases hf : anchorsFull urlData with
    | true => exact Or.inr (Or.inl ⟨rfl, rfl, rfl⟩)
    | false => exact Or.inr (Or.inr ⟨rfl, rfl, by simp⟩)

/-- `lookUp` finds the URL, drops it for one of three reasons, or leaves it to be added. -/
theorem lookUp_cases (p : Policy) (r : Request) (priority : Nat) (s : UrlStore) :
    (∃ data, findUrlData (lowercaseUrl r.url) s = some data ∧
      lookUp p r priority s =
        (.known, setUrlData (lowercaseUrl r.url) (merge r data) (seen s))) ∨
    (findUrlData (lowercaseUrl r.url) s = none ∧
      (priority ≥ PRIORITY_BUCKETS ∨ isNsfwUrl p (lowercaseUrl r.url) = true ∨
        s.uniqueUrlCount ≥ MAX_STORE_URLS) ∧
      lookUp p r priority s = (.dropped, seen s)) ∨
    (findUrlData (lowercaseUrl r.url) s = none ∧
      (priority < PRIORITY_BUCKETS ∧ isNsfwUrl p (lowercaseUrl r.url) = false ∧
        s.uniqueUrlCount < MAX_STORE_URLS) ∧
      lookUp p r priority s = (.unknown, seen s)) := by
  unfold lookUp
  dsimp only
  rw [findUrlData_seen]
  cases hfind : findUrlData (lowercaseUrl r.url) s with
  | some data => exact Or.inl ⟨data, rfl, rfl⟩
  | none =>
    dsimp only
    split_ifs with hp hn hm
    · exact Or.inr (Or.inl ⟨rfl, Or.inl hp, rfl⟩)
    · exact Or.inr (Or.inl ⟨rfl, Or.inr (Or.inl hn), rfl⟩)
    · exact Or.inr (Or.inl ⟨rfl, Or.inr (Or.inr hm), rfl⟩)
    · exact Or.inr (Or.inr ⟨rfl, ⟨Nat.lt_of_not_le hp, eq_false_of_ne_true hn,
        Nat.lt_of_not_le hm⟩, rfl⟩)

/-- `updateUrl` counts the texts of a known URL, drops the call, or adds a URL with its texts. -/
theorem updateUrl_cases (p : Policy) (r : Request) (priority : Nat) (s : UrlStore) :
    (∃ data, findUrlData (lowercaseUrl r.url) s = some data ∧
      updateUrl p r priority s =
        (false, addAnchors false r (setUrlData (lowercaseUrl r.url) (merge r data) (seen s)))) ∨
    (findUrlData (lowercaseUrl r.url) s = none ∧ updateUrl p r priority s = (false, seen s)) ∨
    (findUrlData (lowercaseUrl r.url) s = none ∧
      updateUrl p r priority s =
        (true, addAnchors true r (setUrlData (lowercaseUrl r.url) (firstData r)
          { seen s with uniqueUrlCount := s.uniqueUrlCount + 1 }))) := by
  unfold updateUrl
  rcases lookUp_cases p r priority s with ⟨data, hfind, heq⟩ | ⟨hfind, _, heq⟩ | ⟨hfind, _, heq⟩
  · rw [heq]
    exact Or.inl ⟨data, hfind, rfl⟩
  · rw [heq]
    exact Or.inr (Or.inl ⟨hfind, rfl⟩)
  · simp only [heq, addUrlUnlocked, findUrlData_seen, hfind]
    exact Or.inr (Or.inr ⟨trivial, rfl⟩)

theorem lookUp_anchors (p : Policy) (r : Request) (priority : Nat) (s : UrlStore) :
    (lookUp p r priority s).2.toAnchorTable = s.toAnchorTable := by
  rcases lookUp_cases p r priority s with ⟨data, _, heq⟩ | ⟨_, _, heq⟩ | ⟨_, _, heq⟩ <;>
    rw [heq] <;> rfl

theorem addUrlUnlocked_anchors (r : Request) (s : UrlStore) :
    (addUrlUnlocked r s).2.toAnchorTable = s.toAnchorTable := by
  unfold addUrlUnlocked
  cases findUrlData (lowercaseUrl r.url) s <;> rfl

@[simp] theorem addAnchor_uniqueUrlCount (isNew : Bool) (url : Bytes) (s : UrlStore)
    (text : Bytes) : (addAnchor isNew url s text).uniqueUrlCount = s.uniqueUrlCount := by
  unfold addAnchor
  dsimp only
  split_ifs <;> rfl

/-- A record stays where it is. -/
theorem addAnchor_found {s : UrlStore} (isNew : Bool) (url text : Bytes)
    (h : findUrlData url s ≠ none) : findUrlData url (addAnchor isNew url s text) ≠ none := by
  unfold addAnchor
  dsimp only
  split_ifs
  · exact h
  · exact findUrlData_set_ne_none _ _ _

theorem addAnchor_anchors (isNew : Bool) (url : Bytes) (s : UrlStore) (text : Bytes) :
    (addAnchor isNew url s text).toAnchorTable =
      (findAnchorId text (findUrlData url s) s.toAnchorTable).2 := by
  unfold addAnchor
  dsimp only
  split_ifs <;> rfl

end seamus.url_store
