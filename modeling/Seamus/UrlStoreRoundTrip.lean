-- The URL store over its file: `readFromFile` takes back, field by field, what
-- `persist` wrote, and puts every record into its shard.
import Seamus.UrlStoreFile
import Seamus.StoreCapacity
import Seamus.UrlSnapshot

open little_endian seamus.url_store seamus.url_store_file
open seamus.anchor_table (Inverse inverse_loadAnchors_iff loadAnchors_idToAnchor)
open seamus.store_capacity (stored stored_congr stored_setUrlData shardOf_lt)
open seamus.url_snapshot (EachData writtenText_all)

namespace seamus.url_store_round_trip

/-! ## One record -/

/-- The record that the reader makes of one that was written. -/
def recordOf (order : SlotOrder) (url : Bytes) (data : UrlData) : UrlRecord :=
  ⟨url, data.numEncountered, data.seedDistance, data.eot, data.eod, data.domainDist,
    some data.title, data.crawled, (order.walk data.anchorFreqs.entries).map fun e => (e.1, e.2)⟩

theorem drop_leBytes_add (w n k : Nat) (rest : Bytes) :
    (leBytes w n ++ rest).drop (w + k) = rest.drop k := by
  rw [← List.drop_drop, drop_leBytes]

theorem leValue_u32 (x : UInt32) (rest : Bytes) :
    UInt32.ofNat (leValue ((leBytes 4 x.toNat ++ rest).take 4)) = x := by
  rw [leValue_take_leBytes 4 _ _ x.toNat_lt, UInt32.ofNat_toNat]

theorem leValue_u16 (x : UInt16) (rest : Bytes) :
    UInt16.ofNat (leValue ((leBytes 2 x.toNat ++ rest).take 2)) = x := by
  rw [leValue_take_leBytes 2 _ _ x.toNat_lt, UInt16.ofNat_toNat]

/-- The pairs of a record are read back as far as their count says. -/
theorem readFreqs_written (freqs : List (Sigma fun _ : UInt32 => UInt32)) (rest : Bytes) :
    readFreqs freqs.length ((freqs.flatMap fun e => freqBytes e.1 e.2) ++ rest) =
      freqs.map fun e => (e.1, e.2) := by
  induction freqs with
  | nil => rfl
  | cons e freqs ih =>
    have hfront : ((e :: freqs).flatMap fun e => freqBytes e.1 e.2) ++ rest =
        leBytes 4 e.1.toNat ++ (leBytes 4 e.2.toNat ++
          ((freqs.flatMap fun e => freqBytes e.1 e.2) ++ rest)) := by
      simp only [List.flatMap_cons, freqBytes, List.append_assoc]
    have hskip : ∀ tail : Bytes, (leBytes 4 e.1.toNat ++ (leBytes 4 e.2.toNat ++ tail)).drop 8 =
        tail := by
      intro tail
      exact (drop_leBytes_add 4 _ 4 _).trans (drop_leBytes 4 _ _)
    rw [hfront, List.length_cons, readFreqs, leValue_u32, drop_leBytes, leValue_u32, hskip, ih]
    rfl

theorem freqBytes_length (freqs : List (Sigma fun _ : UInt32 => UInt32)) :
    (freqs.flatMap fun e => freqBytes e.1 e.2).length = 8 * freqs.length := by
  induction freqs with
  | nil => rfl
  | cons e freqs ih =>
    rw [List.flatMap_cons, List.length_append, ih, freqBytes, List.length_append, leBytes_length,
      leBytes_length, List.length_cons]
    omega

/-- The fields of a record, each with the bytes that follow it. -/
theorem recordBytes_append (order : SlotOrder) (url : Bytes) (data : UrlData) (rest : Bytes) :
    recordBytes order url data ++ rest =
      leBytes 4 url.length ++ (url ++ (leBytes 4 data.numEncountered.toNat ++
        (leBytes 2 data.seedDistance.toNat ++ (leBytes 2 data.eot.toNat ++
          (leBytes 8 data.title.length ++ (data.title ++ (leBytes 2 data.eod.toNat ++
            (leBytes 2 data.domainDist.toNat ++ ([if data.crawled then 1 else 0] ++
              (leBytes 4 data.anchorFreqs.entries.length ++
                (((order.walk data.anchorFreqs.entries).flatMap fun e => freqBytes e.1 e.2) ++
                  rest))))))))))) := by
  simp only [recordBytes, List.append_assoc]

theorem crawled_read (crawled : Bool) (rest : Bytes) :
    decide (leValue (((if crawled then 1 else 0) :: rest).take 1) ≠ 0) = crawled := by
  cases crawled <;> simp [leValue]

/-- A record is read back with all its fields. What the reader goes on with depends on the
count of the pairs, whose double is taken in 32 bits. -/
theorem readRecord_written (order : SlotOrder) {url : Bytes} {data : UrlData} (rest : Bytes)
    (hlower : lowercaseUrl url = url) (hurl : url.length ≤ URL_STORE_MAX_URL_LEN)
    (htitle : data.title.length ≤ MAX_TITLELEN_MEMORY)
    (hcount : data.anchorFreqs.entries.length < 2 ^ 32) :
    readRecord (recordBytes order url data ++ rest) =
      some (recordOf order url data,
        (((order.walk data.anchorFreqs.entries).flatMap fun e => freqBytes e.1 e.2) ++ rest).drop
          (u32 (data.anchorFreqs.entries.length * 2) * 4)) := by
  have hurl4 : url.length < 256 ^ 4 := Nat.lt_of_le_of_lt hurl (by decide)
  have htitle8 : data.title.length < 256 ^ 8 := Nat.lt_of_le_of_lt htitle (by decide)
  have hcount4 : data.anchorFreqs.entries.length < 256 ^ 4 := hcount
  have hwalk : (order.walk data.anchorFreqs.entries).length = data.anchorFreqs.entries.length :=
    (order.perm _).length_eq
  have hfreqs := readFreqs_written (order.walk data.anchorFreqs.entries) rest
  have hbytes := freqBytes_length (order.walk data.anchorFreqs.entries)
  rw [hwalk] at hfreqs hbytes
  have henough : u32 (data.anchorFreqs.entries.length * 2) * 4 ≤
      8 * data.anchorFreqs.entries.length := by
    have hle := Nat.mod_le (data.anchorFreqs.entries.length * 2) (2 ^ 32)
    unfold u32
    omega
  rw [recordBytes_append]
  generalize hpairs : ((order.walk data.anchorFreqs.entries).flatMap fun e =>
    freqBytes e.1 e.2) = pairs at hfreqs hbytes
  unfold readRecord
  rw [if_neg (by simp)]
  simp only [leValue_take_leBytes 4 _ _ hurl4, drop_leBytes]
  rw [if_neg (by simp), Nat.min_eq_left hurl]
  simp only [List.take_left, List.drop_left, hlower]
  rw [if_neg (by simp; omega)]
  -- The numbers before the title.
  simp only [leValue_u32, drop_leBytes, leValue_u16, drop_leBytes_add 4 _ 2, drop_leBytes_add 4 _ 4,
    drop_leBytes_add 2 _ 2, drop_leBytes_add 4 _ 12, drop_leBytes_add 2 _ 10,
    drop_leBytes_add 2 _ 8, leValue_take_leBytes 8 _ _ htitle8]
  rw [if_neg (by simp), if_neg (Nat.not_lt_of_le htitle)]
  simp only [List.take_left, List.drop_left]
  rw [if_neg (by simp; omega)]
  -- The numbers after it.
  simp only [leValue_u16, drop_leBytes, drop_leBytes_add 2 _ 2, drop_leBytes_add 2 _ 3,
    drop_leBytes_add 2 _ 7, drop_leBytes_add 2 _ 1, drop_leBytes_add 2 _ 5, crawled_read,
    List.singleton_append, List.drop_succ_cons, List.drop_zero,
    leValue_take_leBytes 4 _ _ hcount4, hfreqs]
  rw [if_neg (by simp; omega)]
  rfl

/-! ## All records -/

/-- What the fields of a record need, to come back. -/
structure Storable (url : Bytes) (data : UrlData) : Prop where
  lower : lowercaseUrl url = url
  urlLen : url.length ≤ URL_STORE_MAX_URL_LEN
  titleLen : data.title.length ≤ MAX_TITLELEN_MEMORY
  freqs : data.anchorFreqs.entries.length < 2 ^ 31

theorem readRecord_next (order : SlotOrder) {url : Bytes} {data : UrlData} (rest : Bytes)
    (h : Storable url data) :
    readRecord (recordBytes order url data ++ rest) = some (recordOf order url data, rest) := by
  have hcount := h.freqs
  have hwalk : (order.walk data.anchorFreqs.entries).length = data.anchorFreqs.entries.length :=
    (order.perm _).length_eq
  have hdouble : u32 (data.anchorFreqs.entries.length * 2) * 4 =
      ((order.walk data.anchorFreqs.entries).flatMap fun e => freqBytes e.1 e.2).length := by
    rw [freqBytes_length, hwalk, u32_of_lt (by omega)]
    omega
  rw [readRecord_written order rest h.lower h.urlLen h.titleLen (by omega), hdouble,
    List.drop_left]

theorem readRecords_written (order : SlotOrder) (records : List (Bytes × UrlData)) (turns : Nat)
    (hturns : records.length < turns) (h : ∀ r ∈ records, Storable r.1 r.2) :
    readRecords turns (records.flatMap fun r => recordBytes order r.1 r.2) =
      records.map fun r => recordOf order r.1 r.2 := by
  induction records generalizing turns with
  | nil =>
    cases turns with
    | zero => cases hturns
    | succ turns => rfl
  | cons r records ih =>
    cases turns with
    | zero => cases hturns
    | succ turns =>
      have hrest := ih turns (Nat.lt_of_succ_lt_succ hturns)
        fun r' hr' => h r' (List.mem_cons_of_mem r hr')
      rw [List.flatMap_cons, readRecords, readRecord_next order _ (h r List.mem_cons_self)]
      simp only [hrest, List.map_cons]

theorem length_le_recordBytes (order : SlotOrder) (records : List (Bytes × UrlData)) :
    records.length ≤ (records.flatMap fun r => recordBytes order r.1 r.2).length := by
  induction records with
  | nil => exact Nat.le_refl _
  | cons r records ih =>
    have hone : 1 ≤ (recordBytes order r.1 r.2).length := by
      rw [← List.append_nil (recordBytes order r.1 r.2), recordBytes_append]
      simp
      omega
    rw [List.flatMap_cons, List.length_append, List.length_cons]
    omega

/-! ## The insertion into the shards -/

/-- The same fields, and the same frequency for every anchor id. -/
structure SameRecord (data data' : UrlData) : Prop where
  numEncountered : data.numEncountered = data'.numEncountered
  seedDistance : data.seedDistance = data'.seedDistance
  domainDist : data.domainDist = data'.domainDist
  eot : data.eot = data'.eot
  eod : data.eod = data'.eod
  title : data.title = data'.title
  crawled : data.crawled = data'.crawled
  anchorFreqs : ∀ id, data.anchorFreqs.lookup id = data'.anchorFreqs.lookup id

theorem lookup_foldl_insert {α β : Type} [DecidableEq α] (pairs : List (α × β))
    (m : AList fun _ : α => β) (hn : (pairs.map Prod.fst).Nodup) (a : α) (b : β) :
    (pairs.foldl (fun m e => m.insert e.1 e.2) m).lookup a = some b ↔
      (a, b) ∈ pairs ∨ a ∉ pairs.map Prod.fst ∧ m.lookup a = some b := by
  induction pairs generalizing m with
  | nil => simp
  | cons e pairs ih =>
    obtain ⟨hnew, hn⟩ := List.nodup_cons.mp hn
    rw [List.foldl_cons, ih (m.insert e.1 e.2) hn]
    by_cases ha : a = e.1
    · subst ha
      have hnot (b : β) : (e.1, b) ∉ pairs := fun hmem => hnew (List.mem_map.mpr ⟨_, hmem, rfl⟩)
      simp [hnew, hnot, Prod.ext_iff, eq_comm]
    · rw [AList.lookup_insert_ne ha]
      simp [ha, Prod.ext_iff]

theorem lookup_pairs (order : SlotOrder) (m : AList fun _ : UInt32 => UInt32) (id : UInt32) :
    (((order.walk m.entries).map fun e => (e.1, e.2)).foldl (fun m e => m.insert e.1 e.2)
      (∅ : AList fun _ : UInt32 => UInt32)).lookup id = m.lookup id := by
  have hkeys : ((order.walk m.entries).map fun e => (e.1, e.2)).map Prod.fst =
      (order.walk m.entries).map Sigma.fst := by
    rw [List.map_map]
    rfl
  have hn : (((order.walk m.entries).map fun e => (e.1, e.2)).map Prod.fst).Nodup := by
    rw [hkeys]
    exact ((order.perm m.entries).map Sigma.fst).nodup_iff.mpr m.keys_nodup
  apply Option.ext
  intro freq
  have hmem : (id, freq) ∈ (order.walk m.entries).map (fun e => (e.1, e.2)) ↔
      ⟨id, freq⟩ ∈ m.entries := by
    rw [← (order.perm m.entries).mem_iff]
    simp only [List.mem_map, Prod.mk.injEq]
    constructor
    · rintro ⟨⟨i, f⟩, he, rfl, rfl⟩
      exact he
    · intro he
      exact ⟨_, he, rfl, rfl⟩
  rw [lookup_foldl_insert _ _ hn, hmem, ← AList.mem_lookup_iff]
  simp

/-- A record for a URL that the store does not have is taken over as it was written. -/
theorem insertRecord_same (order : SlotOrder) {url : Bytes} (data : UrlData) {s : UrlStore}
    (hnew : findUrlData url s = none) :
    ∃ data', findUrlData url (insertRecord s (recordOf order url data)) = some data' ∧
      SameRecord data data' := by
  unfold insertRecord
  refine ⟨_, findUrlData_setUrlData _ _ _, ?_⟩
  simp only [recordOf, hnew]
  exact ⟨rfl, rfl, rfl, rfl, rfl, rfl, rfl, fun id => (lookup_pairs order data.anchorFreqs id).symm⟩

/-- Every URL lies in the shard that its hash gives. -/
def Placed (s : UrlStore) : Prop := EachData (fun shard url _ => shardOf url = shard) s

/-- What the loop over the records of the file leaves. -/
structure Inserted (records : List (Bytes × UrlData)) (s s' : UrlStore) : Prop where
  taken : ∀ url data, (url, data) ∈ records →
    ∃ data', findUrlData url s' = some data' ∧ SameRecord data data'
  others : ∀ url, url ∉ records.map Prod.fst → findUrlData url s' = findUrlData url s
  stored : store_capacity.stored s' = store_capacity.stored s + records.length
  placed : Placed s'

theorem foldl_insertRecord_inserted (order : SlotOrder) (records : List (Bytes × UrlData))
    (s : UrlStore) (hn : (records.map Prod.fst).Nodup)
    (hnew : ∀ r ∈ records, findUrlData r.1 s = none) (hplaced : Placed s) :
    Inserted records s ((records.map fun r => recordOf order r.1 r.2).foldl insertRecord s) := by
  induction records generalizing s with
  | nil => exact ⟨fun _ _ h => (nomatch h), fun _ _ => rfl, by simp, hplaced⟩
  | cons r records ih =>
    obtain ⟨hfirst, hn⟩ := List.nodup_cons.mp hn
    have hnone := hnew r List.mem_cons_self
    let s' := insertRecord s (recordOf order r.1 r.2)
    have hother {url : Bytes} (hurl : url ≠ r.1) : findUrlData url s' = findUrlData url s :=
      findUrlData_setUrlData_of_ne _ _ hurl
    have hstored : stored s' = stored s + 1 :=
      (stored_setUrlData r.1 _ s).trans (by rw [if_pos hnone])
    have hrest := ih s' hn (by
      intro r' hr'
      have hurl : r'.1 ≠ r.1 := fun heq => hfirst (heq ▸ List.mem_map_of_mem hr')
      rw [hother hurl]
      exact hnew r' (List.mem_cons_of_mem r hr')) (hplaced.set rfl)
    refine ⟨?_, ?_, ?_, hrest.placed⟩
    · intro url data hmem
      rcases List.mem_cons.mp hmem with heq | hmem
      · subst heq
        obtain ⟨data', hfind, hsame⟩ := insertRecord_same order data hnone
        exact ⟨data', (hrest.others url hfirst).trans hfind, hsame⟩
      · exact hrest.taken url data hmem
    · intro url hurl
      obtain ⟨hne, hurl⟩ := not_or.mp (List.mem_cons.not.mp hurl)
      exact (hrest.others url hurl).trans (hother hne)
    · have hlast := hrest.stored
      rw [hstored] at hlast
      rw [List.length_cons]
      exact hlast.trans (by omega)

/-! ## The records that persist writes -/

theorem mem_writtenRecords (order : SlotOrder) {shard : AList fun _ : Bytes => UrlData}
    (hlen : ∀ e ∈ shard.entries, e.1.length ≤ URL_STORE_MAX_URL_LEN) (url : Bytes)
    (data : UrlData) :
    (url, data) ∈ writtenRecords order false shard ↔ ⟨url, data⟩ ∈ shard.entries := by
  unfold writtenRecords
  simp only [List.mem_map, List.mem_filter, (order.perm shard.entries).mem_iff, Prod.mk.injEq]
  constructor
  · rintro ⟨e, ⟨he, _⟩, rfl, rfl⟩
    exact he
  · intro he
    exact ⟨_, ⟨he, by simp [isWritten, hlen _ he]⟩, rfl, rfl⟩

/-- Without a final `persist` all records are written, each of them once. -/
theorem writtenRecords_keys (order : SlotOrder) {shard : AList fun _ : Bytes => UrlData}
    (hlen : ∀ e ∈ shard.entries, e.1.length ≤ URL_STORE_MAX_URL_LEN) :
    ((writtenRecords order false shard).map Prod.fst).Perm shard.keys := by
  have hall : (order.walk shard.entries).filter (fun e => isWritten false e.1 e.2) =
      order.walk shard.entries := by
    apply List.filter_eq_self.mpr
    intro e he
    simp [isWritten, hlen e ((order.perm _).mem_iff.mp he)]
  unfold writtenRecords
  rw [hall, List.map_map]
  exact (order.perm shard.entries).map Sigma.fst

section

variable {s : UrlStore} (order : SlotOrder) (hplaced : Placed s)
  (hlen : EachData (fun _ url _ => url.length ≤ URL_STORE_MAX_URL_LEN) s)

include hplaced hlen

theorem mem_persist (url : Bytes) (data : UrlData) :
    (url, data) ∈ (persist order false s).records ↔ findUrlData url s = some data := by
  unfold persist findUrlData
  simp only [List.mem_flatMap, List.mem_range]
  constructor
  · rintro ⟨shard, _, hmem⟩
    have he := (mem_writtenRecords order (hlen shard) url data).mp hmem
    have hshard : shardOf url = shard := hplaced shard _ he
    rw [hshard]
    exact AList.mem_lookup_iff.mpr he
  · intro hfind
    exact ⟨shardOf url, shardOf_lt url,
      (mem_writtenRecords order (hlen _) url data).mpr (AList.mem_lookup_iff.mp hfind)⟩

theorem persist_urls_nodup : ((persist order false s).records.map Prod.fst).Nodup := by
  unfold persist
  dsimp only
  rw [List.map_flatMap, List.nodup_flatMap]
  refine ⟨?_, ?_⟩
  · intro shard _
    exact (writtenRecords_keys order (hlen shard)).nodup_iff.mpr (s.shards shard).keys_nodup
  · refine List.Pairwise.imp ?_ List.nodup_range
    intro i j hij url hi hj
    -- A URL lies in one shard only.
    have hshard {k : Nat} (hk : url ∈ (writtenRecords order false (s.shards k)).map Prod.fst) :
        shardOf url = k := by
      obtain ⟨e, he, heq⟩ := List.mem_map.mp
        ((writtenRecords_keys order (hlen k)).mem_iff.mp hk)
      rw [← heq]
      exact hplaced k e he
    exact hij ((hshard hi).symm.trans (hshard hj))

omit hplaced in
theorem persist_length : (persist order false s).records.length = stored s := by
  have hshard (i : Nat) : (writtenRecords order false (s.shards i)).length =
      (s.shards i).entries.length := by
    have hkeys := (writtenRecords_keys order (hlen i)).length_eq
    rwa [List.length_map, AList.keys, List.keys, List.length_map] at hkeys
  have hsum (n : Nat) : ((List.range n).map fun i => (s.shards i).entries.length).sum =
      ∑ i ∈ Finset.range n, (s.shards i).entries.length := by
    induction n with
    | zero => rfl
    | succ n ih => simp [List.range_succ, Finset.sum_range_succ, ih]
  unfold persist stored
  rw [List.length_flatMap]
  simp only [hshard, hsum]

end

/-! ## The whole file -/

/-- The anchor section is read to its end. -/
theorem readAnchors_all (texts : List Bytes) (rest : Bytes)
    (hlen : ∀ text ∈ texts, text.length < 2 ^ 32) :
    (readAnchors texts.length (texts.flatMap anchorBytes ++ rest)).2 = rest := by
  induction texts with
  | nil => rfl
  | cons text texts ih =>
    have hlt : text.length < 256 ^ 4 := hlen text List.mem_cons_self
    have hrest := ih fun t ht => hlen t (List.mem_cons_of_mem _ ht)
    rw [List.flatMap_cons, anchorBytes, List.append_assoc, List.append_assoc, List.length_cons,
      readAnchors, if_neg (by simp)]
    simp only [leValue_take_leBytes 4 _ _ hlt, drop_leBytes]
    rw [if_neg (by simp), List.drop_left, hrest]

/-- A store between two updates whose fields the file can hold. -/
structure Writable (s : UrlStore) : Prop where
  placed : Placed s
  lower : EachData (fun _ url _ => lowercaseUrl url = url) s
  urlLen : EachData (fun _ url _ => url.length ≤ URL_STORE_MAX_URL_LEN) s
  titleLen : EachData (fun _ _ data => data.title.length ≤ MAX_TITLELEN_MEMORY) s
  anchors : Inverse s.toAnchorTable
  anchorLen : ∀ text ∈ s.idToAnchor, text.length ≤ URL_STORE_MAX_ANCHOR_TEXT_LEN

/-- What comes back is what was there. -/
structure Restored (s s' : UrlStore) : Prop where
  records : ∀ url, Option.Rel SameRecord (findUrlData url s) (findUrlData url s')
  placed : Placed s'
  idToAnchor : s'.idToAnchor = s.idToAnchor
  anchorToId : ∀ text, s'.anchorToId.lookup text = s.anchorToId.lookup text
  uniqueUrlCount : s'.uniqueUrlCount = stored s'
  stored : store_capacity.stored s' = store_capacity.stored s

/-- The counts of the store fit the widths that the file and its reader have for them: 32
bits for the anchor texts, and 32 bits for twice the ids of a record. -/
structure CountsFit (s : UrlStore) : Prop where
  texts : s.idToAnchor.length < 2 ^ 32
  freqs : EachData (fun _ _ data => data.anchorFreqs.entries.length < 2 ^ 31) s

variable {s : UrlStore}

theorem storedText_all (h : Writable s) : s.idToAnchor.map storedText = s.idToAnchor := by
  rw [List.map_congr_left fun text ht => storedText_of_le (h.anchorLen text ht), List.map_id']

theorem restart_idToAnchor (h : Writable s) (order : SlotOrder) (final : Bool) :
    (restart order final s).toAnchorTable =
      loadAnchors (s.idToAnchor.take (u32 s.idToAnchor.length)) := by
  rw [restart_anchors, List.map_take, storedText_all h]

/-- Two tables that are inverse to the same list of texts give the same ids. -/
theorem lookup_of_inverse {t t' : AnchorTable} (h : Inverse t) (h' : Inverse t')
    (heq : t'.idToAnchor = t.idToAnchor) (text : Bytes) :
    t'.anchorToId.lookup text = t.anchorToId.lookup text := by
  apply Option.ext
  intro id
  rw [h' text id, h text id, heq]

theorem persist_storable (h : Writable s) (hfit : CountsFit s) (order : SlotOrder) :
    ∀ r ∈ (persist order false s).records, Storable r.1 r.2 := by
  intro r hr
  have hfind := (mem_persist order h.placed h.urlLen r.1 r.2).mp hr
  exact ⟨h.lower.find hfind, h.urlLen.find hfind, h.titleLen.find hfind, hfit.freqs.find hfind⟩

/-- When the counts fit, the reader takes all texts and then inserts all records. -/
theorem restart_eq (h : Writable s) (hfit : CountsFit s) (order : SlotOrder) :
    ∃ loaded, Inserted (persist order false s).records
        (setAnchors (loadAnchors s.idToAnchor) emptyStore) loaded ∧
      loaded.toAnchorTable = loadAnchors s.idToAnchor ∧
      restart order false s =
        { loaded with uniqueUrlCount := (persist order false s).records.length } := by
  have hshort : ∀ text ∈ s.idToAnchor, text.length < 2 ^ 32 := fun text ht =>
    Nat.lt_of_le_of_lt (h.anchorLen text ht) (by decide)
  have hanchors : (persist order false s).anchors = s.idToAnchor := writtenText_all hshort
  have hcut : s.idToAnchor.map (List.take URL_STORE_MAX_ANCHOR_TEXT_LEN) = s.idToAnchor := by
    rw [List.map_congr_left fun text ht => List.take_of_length_le (h.anchorLen text ht),
      List.map_id']
  let bytes := (persist order false s).records.flatMap fun r => recordBytes order r.1 r.2
  have hread : readAnchors s.idToAnchor.length (s.idToAnchor.flatMap anchorBytes ++ bytes) =
      (s.idToAnchor, bytes) := by
    apply Prod.ext
    · rw [readAnchors_written _ _ _ (Nat.le_refl _) hshort, List.take_length]
      exact hcut
    · exact readAnchors_all _ _ hshort
  have hrecords := readRecords_written order (persist order false s).records (bytes.length + 1)
    (Nat.lt_succ_of_le (length_le_recordBytes order _)) (persist_storable h hfit order)
  have hfile : fileBytes order (persist order false s) =
      leBytes 4 s.idToAnchor.length ++ (s.idToAnchor.flatMap anchorBytes ++ bytes) := by
    unfold fileBytes
    rw [hanchors]
  refine ⟨_, foldl_insertRecord_inserted order _ _ (persist_urls_nodup order h.placed h.urlLen)
    (fun _ _ => rfl) (fun _ _ he => nomatch he), foldl_insertRecord_anchors _ _, ?_⟩
  unfold restart readFromFile
  rw [hfile, if_neg (by simp), leValue_take_leBytes 4 _ _ hfit.texts, drop_leBytes]
  simp only [hread]
  rw [hrecords, List.length_map]
  rfl

theorem restored (h : Writable s) (hfit : CountsFit s) (order : SlotOrder) :
    Restored s (restart order false s) := by
  obtain ⟨loaded, hinserted, hanchors, heq⟩ := restart_eq h hfit order
  have hlength := persist_length order h.urlLen
  have hempty : stored (setAnchors (loadAnchors s.idToAnchor) emptyStore) = 0 :=
    Finset.sum_eq_zero fun _ _ => rfl
  have hstored : stored (restart order false s) = stored s := by
    have hsame : stored (restart order false s) = stored loaded := by
      rw [heq]
      exact stored_congr rfl
    rw [hsame, hinserted.stored, hempty, hlength, Nat.zero_add]
  have htable : (restart order false s).toAnchorTable = loadAnchors s.idToAnchor := by
    rw [heq]
    exact hanchors
  have hids : (restart order false s).idToAnchor = s.idToAnchor := by
    rw [htable, loadAnchors_idToAnchor]
  have hfound (url : Bytes) :
      findUrlData url (restart order false s) = findUrlData url loaded := by
    rw [heq]
    rfl
  refine ⟨?_, ?_, hids, ?_, ?_, hstored⟩
  · intro url
    rw [hfound]
    cases hfind : findUrlData url s with
    | some data =>
      have hmem := (mem_persist order h.placed h.urlLen url data).mpr hfind
      obtain ⟨data', hfind', hsame⟩ := hinserted.taken url data hmem
      rw [hfind']
      exact Option.Rel.some hsame
    | none =>
      have hnot : url ∉ (persist order false s).records.map Prod.fst := by
        intro hmem
        obtain ⟨⟨_, data⟩, hr, rfl⟩ := List.mem_map.mp hmem
        rw [(mem_persist order h.placed h.urlLen _ data).mp hr] at hfind
        cases hfind
      rw [hinserted.others url hnot]
      exact Option.Rel.none
  · rw [heq]
    exact hinserted.placed
  · apply lookup_of_inverse h.anchors ?_ hids
    rw [htable]
    exact (inverse_loadAnchors_iff _).mpr h.anchors.nodup
  · rw [hstored, heq]
    exact hlength

/-- The reader of a count that has lost its high bits stops early. -/
theorem not_restored_of_many_texts (h : Writable s) (order : SlotOrder)
    (hmany : 2 ^ 32 ≤ s.idToAnchor.length) : ¬Restored s (restart order false s) := by
  intro hrestored
  have hlength := congrArg List.length hrestored.idToAnchor
  have hmod : u32 s.idToAnchor.length < 2 ^ 32 := Nat.mod_lt _ (by decide)
  rw [restart_idToAnchor h, loadAnchors_idToAnchor, List.length_take] at hlength
  omega

/-- A store comes back from its file while its counts fit the widths there, and it never
does when there are more anchor texts than 32 bits count. -/
theorem restart_restores_when_counts_fit (s : UrlStore) (h : Writable s) (order : SlotOrder) :
    (CountsFit s → Restored s (restart order false s)) ∧
      (2 ^ 32 ≤ s.idToAnchor.length → ¬Restored s (restart order false s)) :=
  ⟨fun hfit => restored h hfit order, not_restored_of_many_texts h order⟩

/-- The URL a with the title T and the anchor text x, seen twice. -/
def smallStore : UrlStore :=
  setUrlData [97] ⟨AList.singleton 0 2, 2, 1, 3, 4, [84], 5, true⟩
    { emptyStore with
      toAnchorTable := loadAnchors [[120]]
      uniqueUrlCount := 1 }

theorem small_store_comes_back : Restored smallStore (restart listOrder false smallStore) := by
  have hdata {holds : Nat → Bytes → UrlData → Prop}
      (hone : holds (shardOf [97]) [97] ⟨AList.singleton 0 2, 2, 1, 3, 4, [84], 5, true⟩) :
      EachData holds smallStore := by
    apply EachData.set
    · intro shard e he
      cases he
    · exact hone
  have hwritable : Writable smallStore :=
    ⟨hdata rfl, hdata (by decide), hdata (by decide), hdata (by decide),
      (inverse_loadAnchors_iff _).mpr (by decide), by decide⟩
  have hfit : CountsFit smallStore := ⟨by decide, hdata (by decide)⟩
  exact (restart_restores_when_counts_fit smallStore hwritable listOrder).1 hfit

/-- All texts of four bytes. -/
def allTexts : List Bytes := (List.range (2 ^ 32)).map (leBytes 4)

theorem allTexts_length : allTexts.length = 2 ^ 32 := by
  unfold allTexts
  rw [List.length_map, List.length_range]

theorem allTexts_nodup : allTexts.Nodup := by
  refine List.Nodup.map_on ?_ List.nodup_range
  intro n hn m hm heq
  have hvalue := congrArg leValue heq
  rwa [leValue_leBytes 4 n (List.mem_range.mp hn), leValue_leBytes 4 m (List.mem_range.mp hm)]
    at hvalue

/-- A store without URLs, in whose table they all stand. -/
def textStore : UrlStore := setAnchors (loadAnchors allTexts) emptyStore

theorem all_texts_of_four_bytes_are_lost :
    Writable textStore ∧ ¬Restored textStore (restart listOrder false textStore) := by
  have hids : textStore.idToAnchor = allTexts := by
    rw [textStore, setAnchors_anchors, loadAnchors_idToAnchor]
  have hnone {holds : Nat → Bytes → UrlData → Prop} : EachData holds textStore := by
    intro shard e he
    cases he
  have hwritable : Writable textStore := by
    have hanchors : Inverse textStore.toAnchorTable := by
      rw [textStore, setAnchors_anchors]
      exact (inverse_loadAnchors_iff allTexts).mpr allTexts_nodup
    refine ⟨hnone, hnone, hnone, hnone, hanchors, ?_⟩
    rw [hids]
    intro text htext
    obtain ⟨n, _, rfl⟩ := List.mem_map.mp htext
    rw [leBytes_length]
    decide
  have hmany : 2 ^ 32 ≤ textStore.idToAnchor.length := by
    rw [hids]
    exact Nat.le_of_eq allTexts_length.symm
  exact ⟨hwritable, not_restored_of_many_texts hwritable listOrder hmany⟩

end seamus.url_store_round_trip
