-- The file of the URL store: what `persist` writes, and what `readFromFile`
-- makes of it.
import Seamus.UrlStore
import Seamus.Library.LittleEndian

open little_endian seamus.url_store

namespace seamus.url_store_file

def URL_STORE_MAX_URL_LEN : Nat := 4096

def URL_STORE_MAX_ANCHOR_TEXT_LEN : Nat := 512

def MAX_TITLELEN_MEMORY : Nat := 8 * 1024

/-! ## persist -/

/-- The order in which a walk over the slots of a map comes to its entries. -/
structure SlotOrder where
  walk {α : Type} : List α → List α
  perm {α : Type} (entries : List α) : (walk entries).Perm entries

/-- The order of the list itself. -/
def listOrder : SlotOrder := ⟨id, fun _ => List.Perm.refl _⟩

/-- What `persist` has collected: the anchor strings, and the records with their URLs. -/
structure PersistedFile where
  anchors : List Bytes
  records : List (Bytes × UrlData)
  deriving DecidableEq

/-- The part of an anchor text that `persist` writes: its length is a `uint32_t`. -/
def writtenText (text : Bytes) : Bytes := text.take (u32 text.length)

def isWritten (final : Bool) (url : Bytes) (data : UrlData) : Bool :=
  url.length ≤ URL_STORE_MAX_URL_LEN && (!final || data.crawled)

/-- The loop over one shard. -/
def writtenRecords (order : SlotOrder) (final : Bool) (shard : AList (fun _ : Bytes => UrlData)) :
    List (Bytes × UrlData) :=
  ((order.walk shard.entries).filter fun e => isWritten final e.1 e.2).map fun e => (e.1, e.2)

/-- `persist` without other threads. -/
def persist (order : SlotOrder) (final : Bool) (s : UrlStore) : PersistedFile :=
  ⟨s.idToAnchor.map writtenText,
    (List.range URL_NUM_SHARDS).flatMap fun i => writtenRecords order final (s.shards i)⟩

def anchorBytes (text : Bytes) : Bytes := leBytes 4 text.length ++ text

def freqBytes (id freq : UInt32) : Bytes := leBytes 4 id.toNat ++ leBytes 4 freq.toNat

def recordBytes (order : SlotOrder) (url : Bytes) (data : UrlData) : Bytes :=
  leBytes 4 url.length ++ url ++
  leBytes 4 data.numEncountered.toNat ++ leBytes 2 data.seedDistance.toNat ++
  leBytes 2 data.eot.toNat ++ leBytes 8 data.title.length ++ data.title ++
  leBytes 2 data.eod.toNat ++ leBytes 2 data.domainDist.toNat ++
  [if data.crawled then 1 else 0] ++ leBytes 4 data.anchorFreqs.entries.length ++
  (order.walk data.anchorFreqs.entries).flatMap fun e => freqBytes e.1 e.2

def fileBytes (order : SlotOrder) (f : PersistedFile) : Bytes :=
  leBytes 4 f.anchors.length ++ (f.anchors.flatMap anchorBytes ++
    f.records.flatMap fun r => recordBytes order r.1 r.2)

/-! ## readFromFile -/

/-- The loop over the anchor texts. It breaks off when the file ends too early. -/
def readAnchors : Nat → Bytes → List Bytes × Bytes
  | 0, p => ([], p)
  | n + 1, p =>
    if p.length < 4 then ([], p)
    else
      let anchorLen := leValue (p.take 4)
      let p := p.drop 4
      if p.length < anchorLen then ([], p)
      else
        let (texts, rest) := readAnchors n (p.drop anchorLen)
        (p.take (min anchorLen URL_STORE_MAX_ANCHOR_TEXT_LEN) :: texts, rest)

/-- `id_to_anchor.push_back(text)` and `anchor_to_id[text] = id_to_anchor.size() - 1`. -/
def loadAnchor (t : AnchorTable) (text : Bytes) : AnchorTable :=
  ⟨t.anchorToId.insert text t.idToAnchor.length, t.idToAnchor ++ [text]⟩

def loadAnchors (texts : List Bytes) : AnchorTable := texts.foldl loadAnchor noAnchors

structure UrlRecord where
  url : Bytes
  numEncountered : UInt32
  seedDistance : UInt16
  eot : UInt16
  eod : UInt16
  domainDist : UInt16
  /-- None for a title that is too long. -/
  title : Option Bytes
  crawled : Bool
  anchorFreqs : List (UInt32 × UInt32)
  deriving DecidableEq

def readFreqs : Nat → Bytes → List (UInt32 × UInt32)
  | 0, _ => []
  | n + 1, p =>
    (UInt32.ofNat (leValue (p.take 4)), UInt32.ofNat (leValue ((p.drop 4).take 4))) ::
      readFreqs n (p.drop 8)

/-- One turn of the loop over the records, none where it ends. -/
def readRecord (p : Bytes) : Option (UrlRecord × Bytes) :=
  if p.length < 4 then none
  else
    let urlLen := leValue (p.take 4)
    let p := p.drop 4
    if p.length < urlLen then none
    else
      let url := lowercaseUrl (p.take (min urlLen URL_STORE_MAX_URL_LEN))
      let p := p.drop urlLen
      if p.length < 4 + 2 + 2 + 8 then none
      else
        let numEncountered := UInt32.ofNat (leValue (p.take 4))
        let seedDistance := UInt16.ofNat (leValue ((p.drop 4).take 2))
        let eot := UInt16.ofNat (leValue ((p.drop 6).take 2))
        let titleLen := leValue ((p.drop 8).take 8)
        let p := p.drop 16
        if p.length < titleLen then none
        else
          let title := if titleLen > MAX_TITLELEN_MEMORY then none else some (p.take titleLen)
          let p := p.drop titleLen
          if p.length < 2 + 2 + 1 + 4 then none
          else
            let eod := UInt16.ofNat (leValue (p.take 2))
            let domainDist := UInt16.ofNat (leValue ((p.drop 2).take 2))
            let crawled := decide (leValue ((p.drop 4).take 1) ≠ 0)
            let numFreqs := leValue ((p.drop 5).take 4)
            let p := p.drop 9
            -- The product with 2 is taken in 32 bits.
            let bytes := u32 (numFreqs * 2) * 4
            if p.length < bytes then none
            else
              some (⟨url, numEncountered, seedDistance, eot, eod, domainDist, title, crawled,
                readFreqs numFreqs p⟩, p.drop bytes)

/-- The loop over the records. Every record takes a byte. -/
def readRecords : Nat → Bytes → List UrlRecord
  | 0, _ => []
  | turns + 1, p =>
    match readRecord p with
    | none => []
    | some (rec, p) => rec :: readRecords turns p

/-- The insertion of a record into its shard. -/
def insertRecord (s : UrlStore) (rec : UrlRecord) : UrlStore :=
  let data := (findUrlData rec.url s).getD newUrlData
  setUrlData rec.url
    { anchorFreqs := rec.anchorFreqs.foldl (fun m e => m.insert e.1 e.2) data.anchorFreqs
      numEncountered := rec.numEncountered
      seedDistance := rec.seedDistance
      domainDist := rec.domainDist
      eot := rec.eot
      title := rec.title.getD data.title
      eod := rec.eod
      crawled := rec.crawled } s

/-- `readFromFile` of an empty store. -/
def readFromFile (file : Bytes) : UrlStore :=
  if file.length < 4 then emptyStore
  else
    let (texts, p) := readAnchors (leValue (file.take 4)) (file.drop 4)
    let records := readRecords (p.length + 1) p
    let s := records.foldl insertRecord { emptyStore with toAnchorTable := loadAnchors texts }
    { s with uniqueUrlCount := records.length }

/-- `persist`, then `readFromFile` by a new process. -/
def restart (order : SlotOrder) (final : Bool) (s : UrlStore) : UrlStore :=
  readFromFile (fileBytes order (persist order final s))

/-! ## The anchor texts come back cut -/

/-- What a restart leaves of an anchor text. -/
def storedText (text : Bytes) : Bytes := (writtenText text).take URL_STORE_MAX_ANCHOR_TEXT_LEN

theorem writtenText_length_lt (text : Bytes) : (writtenText text).length < 2 ^ 32 := by
  have hu : u32 text.length < 2 ^ 32 := Nat.mod_lt _ (by decide)
  have hl : (writtenText text).length ≤ u32 text.length := by
    rw [writtenText, List.length_take]
    exact Nat.min_le_left _ _
  exact Nat.lt_of_le_of_lt hl hu

theorem writtenText_of_lt {text : Bytes} (h : text.length < 2 ^ 32) : writtenText text = text := by
  rw [writtenText, u32_of_lt h, List.take_length]

theorem storedText_of_le {text : Bytes} (h : text.length ≤ URL_STORE_MAX_ANCHOR_TEXT_LEN) :
    storedText text = text := by
  have hw : text.length < 2 ^ 32 := Nat.lt_of_le_of_lt h (by decide)
  rw [storedText, writtenText_of_lt hw, List.take_of_length_le h]

/-- The anchor section is read back as far as its count says. -/
theorem readAnchors_written (texts : List Bytes) (rest : Bytes) (k : Nat) (hk : k ≤ texts.length)
    (hlen : ∀ text ∈ texts, text.length < 2 ^ 32) :
    (readAnchors k (texts.flatMap anchorBytes ++ rest)).1 =
      (texts.take k).map (List.take URL_STORE_MAX_ANCHOR_TEXT_LEN) := by
  induction k generalizing texts with
  | zero => rfl
  | succ k ih =>
    cases texts with
    | nil => simp at hk
    | cons text texts =>
      have hlt : text.length < 256 ^ 4 := hlen text List.mem_cons_self
      have hrest := ih texts (Nat.le_of_succ_le_succ hk)
        (fun t ht => hlen t (List.mem_cons_of_mem _ ht))
      rw [List.flatMap_cons, anchorBytes, List.append_assoc, List.append_assoc, readAnchors,
        if_neg (by simp)]
      simp only [leValue_take_leBytes 4 _ _ hlt, drop_leBytes]
      have hcut (more : Bytes) :
          (text ++ more).take (min text.length URL_STORE_MAX_ANCHOR_TEXT_LEN) =
            text.take URL_STORE_MAX_ANCHOR_TEXT_LEN := by
        rw [List.take_append_of_le_length (Nat.min_le_left _ _), List.take_eq_take_iff]
        omega
      rw [if_neg (by simp), List.drop_left, hcut, List.take_succ_cons, List.map_cons, hrest]

theorem insertRecord_anchors (s : UrlStore) (rec : UrlRecord) :
    (insertRecord s rec).toAnchorTable = s.toAnchorTable := rfl

theorem foldl_insertRecord_anchors (records : List UrlRecord) (s : UrlStore) :
    (records.foldl insertRecord s).toAnchorTable = s.toAnchorTable := by
  induction records generalizing s with
  | nil => rfl
  | cons rec records ih => rw [List.foldl_cons, ih, insertRecord_anchors]

/-- The table of anchor texts after a restart. -/
theorem restart_anchors (order : SlotOrder) (final : Bool) (s : UrlStore) :
    (restart order final s).toAnchorTable =
      loadAnchors ((s.idToAnchor.take (u32 s.idToAnchor.length)).map storedText) := by
  let texts := s.idToAnchor.map writtenText
  let records := (persist order final s).records.flatMap fun r => recordBytes order r.1 r.2
  have hfile : fileBytes order (persist order final s) =
      leBytes 4 texts.length ++ (texts.flatMap anchorBytes ++ records) := rfl
  have hcount : leValue ((fileBytes order (persist order final s)).take 4) = u32 texts.length := by
    rw [hfile, List.take_left' (leBytes_length 4 _), leValue_leBytes_mod]
    rfl
  have hread := readAnchors_written texts records (u32 texts.length) (Nat.mod_le _ _)
    (by
      intro text ht
      obtain ⟨t, _, rfl⟩ := List.mem_map.mp ht
      exact writtenText_length_lt t)
  have hlen : ¬(fileBytes order (persist order final s)).length < 4 := by
    rw [hfile, List.length_append, leBytes_length]
    omega
  unfold restart readFromFile
  rw [if_neg hlen, hcount, hfile, drop_leBytes]
  simp only [foldl_insertRecord_anchors]
  rw [hread]
  simp only [texts, List.length_map, ← List.map_take, List.map_map]
  rfl

end seamus.url_store_file
