-- The frontier on disk: the codec of `lib/rpc_crawler.h`, and `persist_buckets` and
-- `load_disk_buckets` of `crawler/bucket_manager.h`.
import Seamus.UrlStoreWorkers
import Seamus.Library.LittleEndian
import Seamus.Library.Records
import Mathlib.Data.Vector.Basic

open little_endian seamus.url_store seamus.url_store_workers

namespace seamus.frontier_files

/-! ## The codec -/

def crawlTargetSerializedSize (ct : CrawlTarget) : Nat :=
  4 + ct.domain.length + (4 + ct.url.length) + 2 * 2

/-- Two strings with their lengths before them, cut to 32 bits, and two distances. -/
def serializeCrawlTarget (ct : CrawlTarget) : Bytes :=
  leBytes 4 ct.domain.length ++ (ct.domain ++ (leBytes 4 ct.url.length ++ (ct.url ++
    (leBytes 2 ct.seedDistance.toNat ++ leBytes 2 ct.domainDist.toNat))))

def deserializeCrawlTarget : records.Reader CrawlTarget := do
  let domainLen ← records.bytes 4
  let domain ← records.bytes (leValue domainLen)
  let urlLen ← records.bytes 4
  let url ← records.bytes (leValue urlLen)
  let dists ← records.bytes (2 * 2)
  pure ⟨domain, url, UInt16.ofNat (leValue (dists.take 2)), UInt16.ofNat (leValue (dists.drop 2))⟩

/-! ## The files -/

abbrev Buckets := Vector (List CrawlTarget) PRIORITY_BUCKETS

abbrev BucketFiles := Vector Bytes PRIORITY_BUCKETS

/-- The buffer that is written: as many bytes as the sizes of the targets say. -/
def persistBucket (urls : List CrawlTarget) : Bytes :=
  (urls.flatMap serializeCrawlTarget).take (urls.map crawlTargetSerializedSize).sum

def persistBuckets (buckets : Buckets) : BucketFiles := buckets.map persistBucket

/-- A file that is missing is as one that is empty. What the file holds comes behind what the
bucket has. A target takes a byte or more, so that there are no more turns than bytes. -/
def loadBucket (file : Bytes) (urls : List CrawlTarget) : List CrawlTarget :=
  urls ++ records.readAll deserializeCrawlTarget file.length file

def loadDiskBuckets (files : BucketFiles) (buckets : Buckets) : Buckets :=
  Vector.zipWith loadBucket files buckets

def noBuckets : Buckets := Vector.replicate PRIORITY_BUCKETS []

/-! ## One target -/

/-- The lengths fit into the 32 bits that the file has for them. -/
def FitsFile (ct : CrawlTarget) : Prop := ct.domain.length < 2 ^ 32 ∧ ct.url.length < 2 ^ 32

instance (ct : CrawlTarget) : Decidable (FitsFile ct) := instDecidableAnd

theorem serialize_length (ct : CrawlTarget) :
    (serializeCrawlTarget ct).length = crawlTargetSerializedSize ct := by
  simp only [serializeCrawlTarget, crawlTargetSerializedSize, List.length_append, leBytes_length]
  omega

theorem persistBucket_eq (urls : List CrawlTarget) :
    persistBucket urls = urls.flatMap serializeCrawlTarget := by
  apply List.take_of_length_le
  rw [List.length_flatMap]
  exact le_of_eq (congrArg List.sum (List.map_congr_left fun ct _ => serialize_length ct))

/-- A length and the string that it is the length of. -/
theorem decodes_string {β : Type} {s text : Bytes} {y : β} {next : Bytes → records.Reader β}
    (hs : s.length < 2 ^ 32) (h : records.Decodes (next s) y text) :
    records.Decodes (do next (← records.bytes (leValue (← records.bytes 4)))) y
      (leBytes 4 s.length ++ (s ++ text)) := by
  have hlength := records.decodes_bytes (leBytes 4 s.length)
  rw [leBytes_length] at hlength
  apply hlength.bind
  rw [leValue_leBytes 4 s.length hs]
  exact (records.decodes_bytes s).bind h

theorem decodes_crawlTarget {ct : CrawlTarget} (h : FitsFile ct) :
    records.Decodes deserializeCrawlTarget ct (serializeCrawlTarget ct) := by
  have hdists := records.decodes_bytes
    (leBytes 2 ct.seedDistance.toNat ++ leBytes 2 ct.domainDist.toNat)
  rw [List.length_append, leBytes_length, leBytes_length] at hdists
  have hseed : leValue (leBytes 2 ct.seedDistance.toNat) = ct.seedDistance.toNat :=
    leValue_leBytes 2 _ ct.seedDistance.toNat_lt
  have hdomain : leValue (leBytes 2 ct.domainDist.toNat) = ct.domainDist.toNat :=
    leValue_leBytes 2 _ ct.domainDist.toNat_lt
  have hlast : records.Decodes (do
      let dists ← records.bytes (2 * 2)
      pure (⟨ct.domain, ct.url, UInt16.ofNat (leValue (dists.take 2)),
        UInt16.ofNat (leValue (dists.drop 2))⟩ : CrawlTarget)) ct
      (leBytes 2 ct.seedDistance.toNat ++ leBytes 2 ct.domainDist.toNat ++ []) := by
    apply hdists.bind
    rw [List.take_left' (leBytes_length 2 _), drop_leBytes, hseed, hdomain, UInt16.ofNat_toNat,
      UInt16.ofNat_toNat]
    exact records.decodes_pure ct
  rw [List.append_nil] at hlast
  exact decodes_string h.1 (decodes_string h.2 hlast)

theorem leValue_bytes_lt {p len rest : Bytes} (h : records.bytes 4 p = some (len, rest)) :
    leValue len < 2 ^ 32 := by
  have hlt := leValue_lt len
  rwa [records.length_bytes h] at hlt

/-- Whatever the file is, the lengths of a target that is read have 32 bits. -/
theorem fitsFile_of_deserialize {ct : CrawlTarget} {p rest : Bytes}
    (h : deserializeCrawlTarget p = some (ct, rest)) : FitsFile ct := by
  obtain ⟨domainLen, p, hdomainLen, h⟩ := records.exists_of_bind h
  obtain ⟨domain, p, hdomain, h⟩ := records.exists_of_bind h
  obtain ⟨urlLen, p, hurlLen, h⟩ := records.exists_of_bind h
  obtain ⟨url, p, hurl, h⟩ := records.exists_of_bind h
  obtain ⟨dists, p, -, h⟩ := records.exists_of_bind h
  cases h
  constructor
  · exact (records.length_bytes hdomain).symm ▸ leValue_bytes_lt hdomainLen
  · exact (records.length_bytes hurl).symm ▸ leValue_bytes_lt hurlLen

/-! ## Buckets -/

/-- The file of a bucket gives the bucket, and a part of the file a front part of it. -/
def RoundTrips (urls : List CrawlTarget) : Prop :=
  ∀ (buckets : Buckets) (plevel : Fin PRIORITY_BUCKETS), buckets.get plevel = urls →
    (loadDiskBuckets (persistBuckets buckets) noBuckets).get plevel = urls ∧
      ∀ files : BucketFiles, files.get plevel <+: (persistBuckets buckets).get plevel →
        (loadDiskBuckets files noBuckets).get plevel <+: urls

theorem loadDiskBuckets_get (files : BucketFiles) (plevel : Fin PRIORITY_BUCKETS) :
    (loadDiskBuckets files noBuckets).get plevel =
      records.readAll deserializeCrawlTarget (files.get plevel).length (files.get plevel) := by
  have hnone : noBuckets.get plevel = [] := Vector.getElem_replicate plevel.isLt
  refine (Vector.getElem_zipWith plevel.isLt).trans ?_
  exact (congrArg (loadBucket (files.get plevel)) hnone).trans (List.nil_append _)

theorem persistBuckets_get (buckets : Buckets) (plevel : Fin PRIORITY_BUCKETS) :
    (persistBuckets buckets).get plevel = (buckets.get plevel).flatMap serializeCrawlTarget := by
  rw [← persistBucket_eq]
  exact Vector.getElem_map persistBucket plevel.isLt

theorem serialize_ne_nil (ct : CrawlTarget) : serializeCrawlTarget ct ≠ [] := by
  apply List.ne_nil_of_length_pos
  rw [serialize_length, crawlTargetSerializedSize]
  omega

theorem length_le_flatMap (urls : List CrawlTarget) :
    urls.length ≤ (urls.flatMap serializeCrawlTarget).length := by
  induction urls with
  | nil => exact Nat.le_refl _
  | cons ct urls ih =>
    have hpos := List.length_pos_iff.mpr (serialize_ne_nil ct)
    rw [List.flatMap_cons, List.length_append, List.length_cons]
    omega

/-- What comes back fits into the file. -/
theorem fitsFile_of_roundTrips {urls : List CrawlTarget} (h : RoundTrips urls) :
    ∀ ct ∈ urls, FitsFile ct := by
  intro ct hct
  have hback := (h (Vector.replicate PRIORITY_BUCKETS urls) ⟨0, Nat.zero_lt_succ 7⟩
    (Vector.getElem_replicate (Nat.zero_lt_succ 7))).1
  rw [loadDiskBuckets_get] at hback
  rw [← hback] at hct
  obtain ⟨p, rest, hread⟩ := records.mem_readAll hct
  exact fitsFile_of_deserialize hread

theorem buckets_round_trip_iff (urls : List CrawlTarget) :
    RoundTrips urls ↔ ∀ ct ∈ urls, FitsFile ct := by
  refine ⟨fitsFile_of_roundTrips, fun hfits buckets plevel hurls => ?_⟩
  have hdecodes : ∀ ct ∈ urls,
      records.Decodes deserializeCrawlTarget ct (serializeCrawlTarget ct) :=
    fun ct hct => decodes_crawlTarget (hfits ct hct)
  have hfile : (persistBuckets buckets).get plevel = urls.flatMap serializeCrawlTarget := by
    rw [persistBuckets_get, hurls]
  constructor
  · rw [loadDiskBuckets_get, hfile]
    exact records.readAll_whole hdecodes (fun ct _ => serialize_ne_nil ct) (length_le_flatMap urls)
  · intro files hpart
    rw [hfile] at hpart
    rw [loadDiskBuckets_get]
    exact records.readAll_part hdecodes hpart _

/-- A domain whose length is cut to zero. -/
def longTarget : CrawlTarget := ⟨List.replicate (2 ^ 32) 97, [], 0, 0⟩

theorem long_domain_is_lost : ¬RoundTrips [longTarget] := by
  intro h
  have hfits := (fitsFile_of_roundTrips h longTarget List.mem_cons_self).1
  rw [longTarget, List.length_replicate] at hfits
  exact Nat.lt_irrefl _ hfits

end seamus.frontier_files
