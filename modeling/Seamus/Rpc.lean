-- The batches that machines send each other: `lib/rpc_common.h`, and the senders and receivers of
-- `lib/rpc_urlstore.h` and `lib/rpc_crawler.h`.
import Seamus.Library.LittleEndian
import Seamus.Library.Streams
import Seamus.UrlStoreWorkers

open little_endian streams seamus.url_store seamus.url_store_workers

namespace seamus.rpc

/-! ## `rpc_common.h` -/

/-- `len > 16 * 1024 * 1024`. -/
def maxStringLen : Nat := 16 * 1024 * 1024

def sendU32 (val : UInt32) : Bytes := beBytes 4 val.toNat

def sendU16 (val : UInt16) : Bytes := beBytes 2 val.toNat

/-- A string with its length before it, cut to 32 bits. -/
def sendString (s : Bytes) : Bytes := sendU32 (UInt32.ofNat s.length) ++ s

def exactly (len : Nat) : Reader Bytes := fun fd => recvExact fd len

def recvU32 : Reader UInt32 := do
  let net ← exactly 4
  pure (UInt32.ofNat (beValue net))

def recvU16 : Reader UInt16 := do
  let net ← exactly 2
  pure (UInt16.ofNat (beValue net))

def recvString : Reader Bytes := do
  let len ← recvU32
  if maxStringLen < len.toNat then fail
  else exactly len.toNat

/-! ## The batches -/

section Batches

variable {α : Type}

/-- The number of the entries, cut to 32 bits, and the entries. -/
def sendBatch (send : α → Bytes) (batch : List α) : Bytes :=
  sendU32 (UInt32.ofNat batch.length) ++ batch.flatMap send

def recvBatch (recv : Reader α) : Reader (List α) := do
  let count ← recvU32
  recvMany recv count.toNat

/-- What was sent comes back in any pieces, and nothing comes of a part of it. -/
def RoundTrips (send : List α → Bytes) (recv : Reader (List α)) (batch : List α) : Prop :=
  (∀ fd : Fd, fd.bytes = send batch → (recv fd).1 = some batch) ∧
    ∀ fd : Fd, fd.bytes <+: send batch → fd.bytes ≠ send batch → (recv fd).1 = none

end Batches

def sendUpdateRequest (req : Request) : Bytes :=
  sendString req.url ++ (sendBatch sendString req.anchorText ++ (sendU32 req.numEncountered ++
    (sendU16 req.seedListUrlHops ++ sendU16 req.seedListDomainHops)))

def recvUpdateRequest : Reader Request := do
  let url ← recvString
  let anchorText ← recvBatch recvString
  let numEncountered ← recvU32
  let seedListUrlHops ← recvU16
  let seedListDomainHops ← recvU16
  pure ⟨url, anchorText, numEncountered, seedListUrlHops, seedListDomainHops⟩

def sendBatchUrlstoreUpdate (reqs : List Request) : Bytes := sendBatch sendUpdateRequest reqs

def recvBatchUrlstoreUpdate : Reader (List Request) := recvBatch recvUpdateRequest

def sendBatchUrlstoreDataRequest (urls : List Bytes) : Bytes := sendBatch sendString urls

def recvBatchUrlstoreDataRequest : Reader (List Bytes) := recvBatch recvString

def sendCrawlTarget (ct : CrawlTarget) : Bytes :=
  sendString ct.domain ++ (sendString ct.url ++ (sendU16 ct.seedDistance ++ sendU16 ct.domainDist))

def recvCrawlTarget : Reader CrawlTarget := do
  let domain ← recvString
  let url ← recvString
  let seedDistance ← recvU16
  let domainDist ← recvU16
  pure ⟨domain, url, seedDistance, domainDist⟩

def sendBatchCrawlTargetRequest (targets : List CrawlTarget) : Bytes :=
  sendBatch sendCrawlTarget targets

def recvBatchCrawlTargetRequest : Reader (List CrawlTarget) := recvBatch recvCrawlTarget

/-! ## The fields -/

theorem decodes_exactly (bytes : Bytes) : Decodes (exactly bytes.length) bytes bytes where
  whole fd rest hfd := by
    have hlen : bytes.length ≤ fd.bytes.length := by
      rw [hfd, List.length_append]
      exact Nat.le_add_right _ _
    obtain ⟨hread, hrest⟩ := recvExact_of_le hlen
    rw [hfd, List.take_left] at hread
    rw [hfd, List.drop_left] at hrest
    exact ⟨hread, hrest⟩
  cut fd hpart hne := by
    apply recvExact_of_lt
    exact Nat.lt_of_le_of_ne hpart.length_le fun heq => hne (hpart.eq_of_length heq)

/-- A number in a fixed count of bytes. -/
theorem decodes_number {α : Type} {len : Nat} (ofNat : Nat → α) {n : Nat} (h : n < 256 ^ len) :
    Decodes (do let net ← exactly len; pure (ofNat (beValue net))) (ofNat n) (beBytes len n) := by
  have hbytes := decodes_exactly (beBytes len n)
  rw [beBytes_length] at hbytes
  have hread : Decodes (do let net ← exactly len; pure (ofNat (beValue net))) (ofNat n)
      (beBytes len n ++ []) := hbytes.bind (by
    rw [beValue_beBytes len n h]
    exact decodes_pure (ofNat n))
  rwa [List.append_nil] at hread

theorem decodes_u32 (val : UInt32) : Decodes recvU32 val (sendU32 val) := by
  have hread : Decodes recvU32 (UInt32.ofNat val.toNat) (sendU32 val) :=
    decodes_number UInt32.ofNat val.toNat_lt
  rwa [UInt32.ofNat_toNat] at hread

theorem decodes_u16 (val : UInt16) : Decodes recvU16 val (sendU16 val) := by
  have hread : Decodes recvU16 (UInt16.ofNat val.toNat) (sendU16 val) :=
    decodes_number UInt16.ofNat val.toNat_lt
  rwa [UInt16.ofNat_toNat] at hread

theorem toNat_ofNat_of_lt {n : Nat} (h : n < 2 ^ 32) : (UInt32.ofNat n).toNat = n :=
  UInt32.toNat_ofNat_of_lt h

theorem decodes_string {s : Bytes} (h : s.length ≤ maxStringLen) :
    Decodes recvString s (sendString s) := by
  have hlen : (UInt32.ofNat s.length).toNat = s.length :=
    toNat_ofNat_of_lt (Nat.lt_of_le_of_lt h (by decide))
  refine (decodes_u32 _).bind ?_
  rw [hlen, if_neg (Nat.not_lt_of_le h)]
  exact decodes_exactly s

/-! ## The laws of the batches -/

section Laws

variable {α : Type} {send : α → Bytes} {recv : Reader α} {fits : α → Prop}

theorem decodes_batch {batch : List α} (hcount : batch.length < 2 ^ 32)
    (h : ∀ x ∈ batch, Decodes recv x (send x)) :
    Decodes (recvBatch recv) batch (sendBatch send batch) := by
  refine (decodes_u32 _).bind ?_
  rw [toNat_ofNat_of_lt hcount]
  exact decodes_many h

/-- A batch that was received has a number of entries that 32 bits hold. -/
theorem fits_of_recvBatch (hfits : ∀ fd x, (recv fd).1 = some x → fits x) {fd : Fd}
    {batch : List α} (h : (recvBatch recv fd).1 = some batch) :
    batch.length < 2 ^ 32 ∧ ∀ x ∈ batch, fits x := by
  obtain ⟨count, -, hmany⟩ := exists_of_bind h
  constructor
  · rw [length_recvMany hmany]
    exact count.toNat_lt
  · intro x hx
    obtain ⟨fd, hread⟩ := mem_recvMany hmany x hx
    exact hfits fd x hread

/-- A batch comes back exactly when its number of entries, and what its entries have, fit. -/
theorem roundTrips_iff {batch : List α}
    (hdecodes : ∀ x ∈ batch, fits x → Decodes recv x (send x))
    (hfits : ∀ fd x, (recv fd).1 = some x → fits x) :
    RoundTrips (sendBatch send) (recvBatch recv) batch ↔
      batch.length < 2 ^ 32 ∧ ∀ x ∈ batch, fits x := by
  constructor
  · rintro ⟨hwhole, -⟩
    exact fits_of_recvBatch hfits (hwhole (Fd.ofBytes _) (Fd.bytes_ofBytes _))
  · rintro ⟨hcount, hall⟩
    have hbatch := decodes_batch hcount fun x hx => hdecodes x hx (hall x hx)
    constructor
    · intro fd hfd
      exact (hbatch.whole fd [] (by rw [hfd, List.append_nil])).1
    · intro fd hpart hne
      exact (hbatch.cut fd hpart hne).1

end Laws

theorem decodes_updateRequest {req : Request} (hurl : req.url.length ≤ maxStringLen)
    (hanchors : ∀ anchor ∈ req.anchorText, anchor.length ≤ maxStringLen)
    (hcount : req.anchorText.length < 2 ^ 32) :
    Decodes recvUpdateRequest req (sendUpdateRequest req) := by
  have hanchor : ∀ anchor ∈ req.anchorText, Decodes recvString anchor (sendString anchor) :=
    fun anchor hmem => decodes_string (hanchors anchor hmem)
  have hlast : Decodes (do
      let seedListDomainHops ← recvU16
      pure (⟨req.url, req.anchorText, req.numEncountered, req.seedListUrlHops,
        seedListDomainHops⟩ : Request)) req (sendU16 req.seedListDomainHops ++ []) :=
    (decodes_u16 _).bind (decodes_pure _)
  rw [List.append_nil] at hlast
  exact (decodes_string hurl).bind ((decodes_batch hcount hanchor).bind
    ((decodes_u32 _).bind ((decodes_u16 _).bind hlast)))

theorem decodes_crawlTarget {ct : CrawlTarget} (hdomain : ct.domain.length ≤ maxStringLen)
    (hurl : ct.url.length ≤ maxStringLen) : Decodes recvCrawlTarget ct (sendCrawlTarget ct) := by
  have hlast : Decodes (do
      let domainDist ← recvU16
      pure (⟨ct.domain, ct.url, ct.seedDistance, domainDist⟩ : CrawlTarget)) ct
        (sendU16 ct.domainDist ++ []) := (decodes_u16 _).bind (decodes_pure _)
  rw [List.append_nil] at hlast
  exact (decodes_string hdomain).bind ((decodes_string hurl).bind ((decodes_u16 _).bind hlast))

theorem fits_of_recvUpdateRequest {fd : Fd} {req : Request}
    (h : (recvUpdateRequest fd).1 = some req) : req.anchorText.length < 2 ^ 32 := by
  obtain ⟨url, -, h⟩ := exists_of_bind h
  obtain ⟨anchorText, hbatch, h⟩ := exists_of_bind h
  obtain ⟨numEncountered, -, h⟩ := exists_of_bind h
  obtain ⟨seedListUrlHops, -, h⟩ := exists_of_bind h
  obtain ⟨seedListDomainHops, -, h⟩ := exists_of_bind h
  cases h
  exact (fits_of_recvBatch (fun _ _ _ => trivial) hbatch).1

theorem update_round_trips_iff {reqs : List Request}
    (hurls : ∀ req ∈ reqs, req.url.length ≤ maxStringLen)
    (hanchors : ∀ req ∈ reqs, ∀ anchor ∈ req.anchorText, anchor.length ≤ maxStringLen) :
    RoundTrips sendBatchUrlstoreUpdate recvBatchUrlstoreUpdate reqs ↔
      reqs.length < 2 ^ 32 ∧ ∀ req ∈ reqs, req.anchorText.length < 2 ^ 32 :=
  roundTrips_iff
    (fun req hreq hcount => decodes_updateRequest (hurls req hreq) (hanchors req hreq) hcount)
    fun _ _ h => fits_of_recvUpdateRequest h

theorem dataRequest_round_trips_iff {urls : List Bytes}
    (hurls : ∀ url ∈ urls, url.length ≤ maxStringLen) :
    RoundTrips sendBatchUrlstoreDataRequest recvBatchUrlstoreDataRequest urls ↔
      urls.length < 2 ^ 32 := by
  refine (roundTrips_iff (fun url hurl _ => decodes_string (hurls url hurl))
    fun _ _ _ => trivial).trans ?_
  exact and_iff_left fun _ _ => trivial

theorem crawlTarget_round_trips_iff {targets : List CrawlTarget}
    (hstrings : ∀ ct ∈ targets, ct.domain.length ≤ maxStringLen ∧ ct.url.length ≤ maxStringLen) :
    RoundTrips sendBatchCrawlTargetRequest recvBatchCrawlTargetRequest targets ↔
      targets.length < 2 ^ 32 := by
  refine (roundTrips_iff
    (fun ct hct _ => decodes_crawlTarget (hstrings ct hct).1 (hstrings ct hct).2)
    fun _ _ _ => trivial).trans ?_
  exact and_iff_left fun _ _ => trivial

/-- The batches whose strings the receiver takes come back, and nothing comes of a part of one,
exactly when the numbers of their entries and of their anchor texts fit into 32 bits. -/
theorem batches_round_trip_iff (reqs : List Request) (targets : List CrawlTarget)
    (urls : List Bytes)
    (hreqs : ∀ req ∈ reqs, req.url.length ≤ maxStringLen ∧
      ∀ anchor ∈ req.anchorText, anchor.length ≤ maxStringLen)
    (htargets : ∀ ct ∈ targets, ct.domain.length ≤ maxStringLen ∧ ct.url.length ≤ maxStringLen)
    (hurls : ∀ url ∈ urls, url.length ≤ maxStringLen) :
    (RoundTrips sendBatchUrlstoreUpdate recvBatchUrlstoreUpdate reqs ↔
      reqs.length < 2 ^ 32 ∧ ∀ req ∈ reqs, req.anchorText.length < 2 ^ 32) ∧
    (RoundTrips sendBatchCrawlTargetRequest recvBatchCrawlTargetRequest targets ↔
      targets.length < 2 ^ 32) ∧
    (RoundTrips sendBatchUrlstoreDataRequest recvBatchUrlstoreDataRequest urls ↔
      urls.length < 2 ^ 32) := by
  refine ⟨?_, crawlTarget_round_trips_iff htargets, dataRequest_round_trips_iff hurls⟩
  exact update_round_trips_iff (fun req hreq => (hreqs req hreq).1) fun req hreq =>
    (hreqs req hreq).2

/-- An update of one URL with two anchor texts. -/
theorem one_update_round_trips :
    RoundTrips sendBatchUrlstoreUpdate recvBatchUrlstoreUpdate [⟨[97], [[98], []], 1, 2, 3⟩] :=
  (batches_round_trip_iff [⟨[97], [[98], []], 1, 2, 3⟩] [] [] (by decide) (by decide)
    (by decide)).1.mpr (by decide)

/-- The number of the URLs of this batch is sent as 0. -/
theorem long_batch_is_lost :
    ¬RoundTrips sendBatchUrlstoreDataRequest recvBatchUrlstoreDataRequest
      (List.replicate (2 ^ 32) []) := by
  rw [dataRequest_round_trips_iff]
  · rw [List.length_replicate]
    exact Nat.lt_irrefl _
  · intro url hurl
    rw [List.eq_of_mem_replicate hurl]
    exact Nat.zero_le _

end seamus.rpc
