-- The file of `persist` while workers go on: when the anchor ids in its URL
-- records stay inside the anchor strings it has written before.
import Seamus.UrlStoreWorkers
import Seamus.AnchorTable

open interleaving seamus.url_store seamus.url_store_file seamus.url_store_workers
open seamus.anchor_table (Inverse inverse_noAnchors findAnchorId_keeps findAnchorId_inverse)

namespace seamus.url_snapshot

/-! ## What holds of every record of a store -/

/-- A property of each record, with its shard and its URL. -/
def EachData (holds : Nat → Bytes → UrlData → Prop) (s : UrlStore) : Prop :=
  ∀ shard, ∀ e ∈ (s.shards shard).entries, holds shard e.1 e.2

section

variable {holds : Nat → Bytes → UrlData → Prop} {s : UrlStore}

theorem EachData.find (h : EachData holds s) {url : Bytes} {data : UrlData}
    (hfind : findUrlData url s = some data) : holds (shardOf url) url data :=
  h (shardOf url) ⟨url, data⟩ (AList.mem_lookup_iff.mp hfind)

theorem EachData.set (h : EachData holds s) {url : Bytes} {data : UrlData}
    (hnew : holds (shardOf url) url data) : EachData holds (setUrlData url data s) := by
  intro shard e he
  by_cases hs : shard = shardOf url
  · subst hs
    rw [setUrlData_shards_self, AList.entries_insert] at he
    rcases List.mem_cons.mp he with he | he
    · rw [he]; exact hnew
    · exact h _ e (List.mem_of_mem_eraseP he)
  · rw [setUrlData_shards_of_ne data s hs] at he
    exact h shard e he

theorem EachData.mono {holds' : Nat → Bytes → UrlData → Prop} (h : EachData holds s)
    (himp : ∀ shard url data, holds shard url data → holds' shard url data) :
    EachData holds' s := fun shard e he => himp _ _ _ (h shard e he)

end

/-! ## The anchor ids of a record -/

def idsOf (data : UrlData) : List UInt32 := data.anchorFreqs.keys

def IdsBelow (n : Nat) (data : UrlData) : Prop := ∀ id ∈ idsOf data, id.toNat < n

theorem idsBelow_new (n : Nat) (r : Request) : IdsBelow n (firstData r) := by
  intro id hid
  simp [firstData, newUrlData, idsOf] at hid

theorem IdsBelow.mono {n m : Nat} {data : UrlData} (h : IdsBelow n data) (hnm : n ≤ m) :
    IdsBelow m data := fun id hid => Nat.lt_of_lt_of_le (h id hid) hnm

theorem IdsBelow.countAnchor {n : Nat} {data : UrlData} (h : IdsBelow n data) (isNew : Bool)
    {id : UInt32} (hid : id.toNat < n) : IdsBelow n (countAnchor isNew id data) := by
  intro other hother
  have hkeys : idsOf (url_store.countAnchor isNew id data) = id :: (idsOf data).erase id :=
    AList.keys_insert data.anchorFreqs
  rw [hkeys] at hother
  rcases List.mem_cons.mp hother with heq | hold
  · rw [heq]; exact hid
  · exact h other (List.mem_of_mem_erase hold)

/-- The state of the tables before `persist` starts: both are inverse, and no record has an
id without a text. -/
structure Sound (s : UrlStore) : Prop where
  inverse : Inverse s.toAnchorTable
  ids : EachData (fun _ _ data => IdsBelow s.idToAnchor.length data) s

theorem sound_emptyStore : Sound emptyStore := by
  refine ⟨inverse_noAnchors, ?_⟩
  intro shard e he
  cases he

/-- A record that `persist` still comes to has no id past the strings that it has written. -/
def Covered (final : Bool) (written shard : Nat) (at' : Nat) (url : Bytes) (data : UrlData) : Prop :=
  shard ≤ at' → isWritten final url data = true → IdsBelow written data

/-! ## The condition on a turn -/

def dataOf (url : Bytes) (s : UrlStore) : UrlData := (findUrlData url s).getD newUrlData

/-- The copy comes to texts that fit a `uint32_t` length. And between the copy and the
write of its shard, a URL that will be written counts only texts that were copied, or
has no room for the text. -/
def Timely (a : Action) (s : System) : Prop :=
  match a with
  | .copyAnchors _ => ∀ text ∈ s.store.idToAnchor, text.length < 2 ^ 32
  | .work i =>
    match s.workers[i]?, s.persisting with
    | some ⟨_, .counting _ r _ (text :: _)⟩, .writing final snapshot shard _ =>
      requestShard r < shard ∨
      isWritten final (lowercaseUrl r.url) (dataOf (lowercaseUrl r.url) s.store) = false ∨
      text ∈ snapshot ∨
      s.store.anchorToId.lookup text = none ∧
        anchorsFull (findUrlData (lowercaseUrl r.url) s.store) = true
    | _, _ => True
  | _ => True

instance (a : Action) (s : System) : Decidable (Timely a s) := by
  unfold Timely
  cases a with
  | copyAnchors final => exact inferInstanceAs (Decidable (∀ text ∈ _, _))
  | work i => dsimp only; split <;> infer_instance
  | writeShard order => exact isTrue trivial
  | finish => exact isTrue trivial

/-! ## A turn of a worker -/

variable {p : Policy} {i : Nat} {s s' : System}

theorem turn_persisting (h : Turn p i s s') :
    s'.persisting = s.persisting ∧ s'.file = s.file := by
  cases h <;> exact ⟨rfl, rfl⟩

/-- A turn counts an anchor text, or it leaves the anchor tables alone and at most
merges counters into a record or adds a record without anchors. -/
theorem turn_store (h : Turn p i s s') :
    (∃ calls caller r isNew text texts,
      s.workers[i]? = some ⟨calls, .counting caller r isNew (text :: texts)⟩ ∧
      s'.store = addAnchor isNew (lowercaseUrl r.url) s.store text) ∨
    s'.store.toAnchorTable = s.store.toAnchorTable ∧
      (s'.store.shards = s.store.shards ∨
        (∃ r data, findUrlData (lowercaseUrl r.url) s.store = some data ∧
          s'.store.shards = (setUrlData (lowercaseUrl r.url) (merge r data) s.store).shards) ∨
        ∃ r, s'.store.shards = (setUrlData (lowercaseUrl r.url) (firstData r) s.store).shards) := by
  cases h with
  | anchor hw => exact Or.inl ⟨_, _, _, _, _, _, hw, rfl⟩
  | known hw hn hfree hfind => exact Or.inr ⟨rfl, Or.inr (Or.inl ⟨_, _, hfind, rfl⟩)⟩
  | insert hw hfind => exact Or.inr ⟨rfl, Or.inr (Or.inr ⟨_, rfl⟩)⟩
  | startBatch | endLoop | dropped | unknown | overtaken | leave | single | putBy | pushBucket
  | endPush => exact Or.inr ⟨rfl, Or.inl rfl⟩

/-- What a property of records needs, to outlive the turns of workers. -/
structure Kept (holds : Nat → Bytes → UrlData → Prop) : Prop where
  merge : ∀ r url data, holds (shardOf url) url data → holds (shardOf url) url (merge r data)
  first : ∀ r url, holds (shardOf url) url (firstData r)
  new : ∀ url, holds (shardOf url) url newUrlData

theorem kept_idsBelow (n : Nat) : Kept (fun _ _ data => IdsBelow n data) :=
  ⟨fun _ _ _ h => h, fun r _ => idsBelow_new n r, fun _ _ hid => by
    simp [newUrlData, idsOf] at hid⟩

theorem kept_covered (final : Bool) (written shard : Nat) : Kept (Covered final written shard) :=
  ⟨fun _ _ _ h => h, fun r _ _ _ => idsBelow_new written r, fun _ _ _ _ hid => by
    simp [newUrlData, idsOf] at hid⟩

theorem eachData_addAnchor {holds : Nat → Bytes → UrlData → Prop} {store : UrlStore}
    (hk : Kept holds) (h : EachData holds store) (isNew : Bool) (url text : Bytes)
    (hcount : (findAnchorId text (findUrlData url store) store.toAnchorTable).1 ≠ noAnchorId →
      holds (shardOf url) url (dataOf url store) →
      holds (shardOf url) url (countAnchor isNew
        (findAnchorId text (findUrlData url store) store.toAnchorTable).1 (dataOf url store))) :
    EachData holds (addAnchor isNew url store text) := by
  have hdata : holds (shardOf url) url (dataOf url store) := by
    unfold dataOf
    cases hfind : findUrlData url store with
    | none => exact hk.new url
    | some data => exact h.find hfind
  unfold addAnchor
  dsimp only
  split_ifs with hid
  · exact h
  · apply EachData.set
    · exact h
    · exact hcount hid hdata

theorem eachData_turn {holds : Nat → Bytes → UrlData → Prop} (hk : Kept holds)
    (h : EachData holds s.store) (hturn : Turn p i s s')
    (hcount : ∀ calls caller r isNew text texts,
      s.workers[i]? = some ⟨calls, .counting caller r isNew (text :: texts)⟩ →
      s'.store = addAnchor isNew (lowercaseUrl r.url) s.store text →
      EachData holds (addAnchor isNew (lowercaseUrl r.url) s.store text)) :
    EachData holds s'.store := by
  rcases turn_store hturn with ⟨calls, caller, r, isNew, text, texts, hw, hstore⟩ |
    ⟨_, hsame | ⟨r, data, hfind, hset⟩ | ⟨r, hset⟩⟩
  · rw [hstore]
    exact hcount calls caller r isNew text texts hw hstore
  · intro shard
    rw [hsame]
    exact h shard
  · have hmerged := h.set (hk.merge r _ data (h.find hfind))
    intro shard
    rw [hset]
    exact hmerged shard
  · have hadded := h.set (hk.first r (lowercaseUrl r.url))
    intro shard
    rw [hset]
    exact hadded shard

/-! ## The ids that a call gives -/

theorem toNat_ofNat_le (n : Nat) : (UInt32.ofNat n).toNat ≤ n := by
  rw [UInt32.toNat_ofNat']
  exact Nat.mod_le n _

theorem findAnchorId_lt {t : AnchorTable} (h : Inverse t) (text : Bytes) (urlData : Option UrlData)
    (hid : (findAnchorId text urlData t).1 ≠ noAnchorId) :
    (findAnchorId text urlData t).1.toNat < (findAnchorId text urlData t).2.idToAnchor.length := by
  rcases findAnchorId_cases text urlData t with ⟨id, hknown, heq⟩ | ⟨_, _, heq⟩ | ⟨_, _, heq⟩
  · have hlt : id < t.idToAnchor.length :=
      (List.getElem?_eq_some_iff.mp ((h text id).mp hknown)).1
    rw [heq]
    exact Nat.lt_of_le_of_lt (toNat_ofNat_le id) hlt
  · rw [heq] at hid
    exact absurd rfl hid
  · rw [heq, List.length_append]
    exact Nat.lt_succ_of_le (toNat_ofNat_le _)

/-- The id of a text that was copied lies inside the copy. -/
theorem findAnchorId_copied {t : AnchorTable} (h : Inverse t) {snapshot : List Bytes}
    (hcopy : snapshot <+: t.idToAnchor) {text : Bytes} (ht : text ∈ snapshot)
    (urlData : Option UrlData) : (findAnchorId text urlData t).1.toNat < snapshot.length := by
  obtain ⟨j, hj⟩ := List.mem_iff_getElem?.mp ht
  have hlt : j < snapshot.length := (List.getElem?_eq_some_iff.mp hj).1
  have hat : t.idToAnchor[j]? = some text := by
    obtain ⟨more, hmore⟩ := hcopy
    rw [← hmore, List.getElem?_append_left hlt]
    exact hj
  have hknown := (h text j).mpr hat
  rcases findAnchorId_cases text urlData t with ⟨id, hid, heq⟩ | ⟨hnone, _⟩ | ⟨hnone, _⟩
  · have hij : id = j := Option.some.inj (hid.symm.trans hknown)
    rw [heq, hij]
    exact Nat.lt_of_le_of_lt (toNat_ofNat_le j) hlt
  · rw [hknown] at hnone; cases hnone
  · rw [hknown] at hnone; cases hnone

/-! ## The invariant -/

structure Snapshot (s : System) : Prop where
  sound : Sound s.store
  writing : ∀ final snapshot shard records,
    s.persisting = .writing final snapshot shard records →
    snapshot <+: s.store.idToAnchor ∧ (∀ r ∈ records, IdsBelow snapshot.length r.2) ∧
      EachData (Covered final snapshot.length shard) s.store
  file : ∀ f, s.file = some f →
    f.anchors <+: s.store.idToAnchor ∧ ∀ r ∈ f.records, IdsBelow f.anchors.length r.2

theorem turn_keeps (h : Turn p i s s') : s.store.idToAnchor <+: s'.store.idToAnchor := by
  rcases turn_store h with ⟨calls, caller, r, isNew, text, texts, _, hstore⟩ | ⟨hsame, _⟩
  · rw [hstore, addAnchor_anchors]
    exact findAnchorId_keeps _ _ _
  · simp only [hsame, List.prefix_refl]

theorem sound_turn (h : Sound s.store) (hturn : Turn p i s s') : Sound s'.store := by
  have hkeeps := turn_keeps hturn
  obtain ⟨hinverse, hids⟩ := h
  constructor
  · rcases turn_store hturn with ⟨calls, caller, r, isNew, text, texts, _, hstore⟩ | ⟨hsame, _⟩
    · rw [hstore, addAnchor_anchors]
      exact findAnchorId_inverse hinverse _ _
    · rw [hsame]; exact hinverse
  · have hold : EachData (fun _ _ data => IdsBelow s'.store.idToAnchor.length data) s.store :=
      hids.mono fun _ _ _ hd => hd.mono hkeeps.length_le
    apply eachData_turn (kept_idsBelow _) hold hturn
    intro calls caller r isNew text texts _ hstore
    apply eachData_addAnchor (kept_idsBelow _) hold
    intro hid hdata
    apply hdata.countAnchor
    rw [hstore, addAnchor_anchors]
    exact findAnchorId_lt hinverse _ _ hid

/-- Between the copy and the write of a shard, timely turns leave its records covered. -/
theorem covered_turn (h : Snapshot s) (ht : Timely (.work i) s) (hturn : Turn p i s s')
    {final : Bool} {snapshot : List Bytes} {shard : Nat} {records : List (Bytes × UrlData)}
    (hp : s.persisting = .writing final snapshot shard records) :
    EachData (Covered final snapshot.length shard) s'.store := by
  obtain ⟨hcopy, _, hcovered⟩ := h.writing final snapshot shard records hp
  apply eachData_turn (kept_covered _ _ _) hcovered hturn
  intro calls caller r isNew text texts hw _
  unfold Timely at ht
  simp only [hw, hp] at ht
  apply eachData_addAnchor (kept_covered _ _ _) hcovered
  intro hid hdata hshard hwritten
  rcases ht with hpast | hskip | hknown | ⟨hnone, hfull⟩
  · exact absurd hshard (Nat.not_le_of_lt hpast)
  · exact absurd (hskip.symm.trans hwritten) (by decide)
  · apply (hdata hshard hwritten).countAnchor
    exact findAnchorId_copied h.sound.inverse hcopy hknown _
  · rcases findAnchorId_cases text (findUrlData (lowercaseUrl r.url) s.store)
      s.store.toAnchorTable with ⟨id, hlook, _⟩ | ⟨_, _, heq⟩ | ⟨_, hroom, _⟩
    · rw [hnone] at hlook; cases hlook
    · rw [heq] at hid; exact absurd rfl hid
    · rw [hfull] at hroom; cases hroom

theorem snapshot_turn (h : Snapshot s) (ht : Timely (.work i) s) (hturn : Turn p i s s') :
    Snapshot s' := by
  obtain ⟨hp, hf⟩ := turn_persisting hturn
  have hkeeps := turn_keeps hturn
  refine ⟨sound_turn h.sound hturn, ?_, ?_⟩
  · intro final snapshot shard records hw
    rw [hp] at hw
    obtain ⟨hcopy, hrecords, _⟩ := h.writing final snapshot shard records hw
    exact ⟨hcopy.trans hkeeps, hrecords, covered_turn h ht hturn hw⟩
  · intro f hfile
    rw [hf] at hfile
    obtain ⟨hanchors, hrecords⟩ := h.file f hfile
    exact ⟨hanchors.trans hkeeps, hrecords⟩

theorem writtenText_all {texts : List Bytes} (h : ∀ text ∈ texts, text.length < 2 ^ 32) :
    texts.map writtenText = texts := by
  rw [List.map_congr_left fun text ht => writtenText_of_lt (h text ht), List.map_id']

theorem snapshot_copy (h : Snapshot s) (final : Bool) (ht : Timely (.copyAnchors final) s) :
    Snapshot { s with
      persisting := .writing final (s.store.idToAnchor.map writtenText) 0 [] } := by
  refine ⟨h.sound, ?_, h.file⟩
  intro final' snapshot shard records hw
  cases hw
  rw [writtenText_all ht]
  refine ⟨List.prefix_refl _, ?_, ?_⟩
  · intro r hr
    cases hr
  · exact h.sound.ids.mono fun _ _ _ hd _ _ => hd

/-- The records that the loop over a shard writes are covered ones of that shard. -/
theorem idsBelow_written {written shard : Nat} {final : Bool} {store : UrlStore}
    (h : EachData (Covered final written shard) store) (order : SlotOrder) :
    ∀ r ∈ writtenRecords order final (store.shards shard), IdsBelow written r.2 := by
  intro r hr
  unfold writtenRecords at hr
  obtain ⟨e, he, rfl⟩ := List.mem_map.mp hr
  obtain ⟨hslot, hwritten⟩ := List.mem_filter.mp he
  exact h shard e ((order.perm _).mem_iff.mp hslot) (Nat.le_refl shard) hwritten

theorem snapshot_step (p : Policy) (a : Action) (s s' : System) (h : Snapshot s) (ht : Timely a s)
    (hstep : step p a s = some s') : Snapshot s' := by
  unfold step at hstep
  cases a with
  | work i => exact snapshot_turn h ht (workerStep_turn hstep)
  | copyAnchors final =>
    cases hp : s.persisting with
    | writing => rw [hp] at hstep; cases hstep
    | idle =>
      rw [hp] at hstep
      cases hstep
      exact snapshot_copy h final ht
  | writeShard order =>
    cases hp : s.persisting with
    | idle => rw [hp] at hstep; cases hstep
    | writing final snapshot shard records =>
      rw [hp] at hstep
      dsimp only at hstep
      split_ifs at hstep
      cases hstep
      obtain ⟨hcopy, hrecords, hcovered⟩ := h.writing final snapshot shard records hp
      refine ⟨h.sound, ?_, h.file⟩
      intro final' snapshot' shard' records' hw
      cases hw
      refine ⟨hcopy, ?_, ?_⟩
      · intro r hr
        rcases List.mem_append.mp hr with hr | hr
        · exact hrecords r hr
        · exact idsBelow_written hcovered order r hr
      · exact hcovered.mono fun _ _ _ hd hle hwritten => hd (Nat.le_of_succ_le hle) hwritten
  | finish =>
    cases hp : s.persisting with
    | idle => rw [hp] at hstep; cases hstep
    | writing final snapshot shard records =>
      rw [hp] at hstep
      dsimp only at hstep
      split_ifs at hstep
      cases hstep
      obtain ⟨hcopy, hrecords, _⟩ := h.writing final snapshot shard records hp
      refine ⟨h.sound, fun _ _ _ _ hw => ?_, ?_⟩
      · cases hw
      · intro f hf
        cases hf
        exact ⟨hcopy, hrecords⟩

theorem snapshot_begin {store : UrlStore} (h : Sound store)
    (dc : Option (Nat → List CrawlTarget)) (calls : List (List Call)) :
    Snapshot (begin' store dc calls) :=
  ⟨h, fun _ _ _ _ hw => (nomatch hw), fun _ hf => (nomatch hf)⟩

/-! ## The file -/

/-- Every anchor id in a URL record of the file is the index of an anchor string of the
file, and the string is the text of the id in memory. -/
def Consistent (f : PersistedFile) (t : AnchorTable) : Prop :=
  ∀ r ∈ f.records, ∀ id ∈ idsOf r.2,
    id.toNat < f.anchors.length ∧ f.anchors[id.toNat]? = t.idToAnchor[id.toNat]?

instance (f : PersistedFile) (t : AnchorTable) : Decidable (Consistent f t) :=
  have (r : Bytes × UrlData) : Decidable (∀ id ∈ idsOf r.2, id.toNat < f.anchors.length ∧
      f.anchors[id.toNat]? = t.idToAnchor[id.toNat]?) := List.decidableBAll _ _
  inferInstanceAs (Decidable (∀ r ∈ f.records, _))

/-- When all turns between the copy of the anchor texts and the writes of the shards are
timely, every file that `persist` leaves is consistent. -/
theorem persisted_file_is_consistent (p : Policy) (store : UrlStore) (hstore : Sound store)
    (dc : Option (Nat → List CrawlTarget)) (calls : List (List Call)) (actions : List Action)
    (h : Meets (step p) Timely actions (begin' store dc calls)) (s : System)
    (hrun : exec (step p) actions (begin' store dc calls) = some s) (f : PersistedFile)
    (hf : s.file = some f) : Consistent f s.store.toAnchorTable := by
  have hsnapshot : Snapshot s :=
    exec_invariant (snapshot_step p) (snapshot_begin hstore dc calls) h hrun
  obtain ⟨hanchors, hrecords⟩ := hsnapshot.file f hf
  intro r hr id hid
  have hlt := hrecords r hr id hid
  obtain ⟨more, hmore⟩ := hanchors
  refine ⟨hlt, ?_⟩
  rw [← hmore, List.getElem?_append_left hlt]

/-- The URL a with the anchor text x. -/
def oneCall : List (List Call) := [[.single ⟨[97], [[120]], 1, 0, 0⟩]]

def writeAll : List Action := List.replicate URL_NUM_SHARDS (.writeShard listOrder) ++ [.finish]

/-- The URLs a and b, each with the anchor text x. -/
def twoCalls : List (List Call) :=
  [[.single ⟨[97], [[120]], 1, 0, 0⟩], [.single ⟨[98], [[120]], 1, 0, 0⟩]]

/-- The copy comes between the two counts of x, and shards are written between the turns of both
workers. -/
def betweenTurns : List Action :=
  [.work 0, .work 1, .work 0, .work 0, .copyAnchors false, .writeShard listOrder, .work 1,
    .work 0, .writeShard listOrder, .work 1, .work 1, .work 0, .work 1] ++
      List.replicate (URL_NUM_SHARDS - 2) (.writeShard listOrder) ++ [.finish]

theorem persisted_file_is_consistent_between_turns :
    ∃ s f, exec (step plainPolicy) betweenTurns (begin' emptyStore none twoCalls) = some s ∧
      s.file = some f ∧ (f.anchors = [[120]] ∧ f.records.map Prod.fst = [[97], [98]]) ∧
      Consistent f s.store.toAnchorTable := by
  have h : Meets (step plainPolicy) Timely betweenTurns (begin' emptyStore none twoCalls) := by
    decide +kernel
  have hfile : ((exec (step plainPolicy) betweenTurns (begin' emptyStore none twoCalls)).bind
      fun s => s.file.map fun f => (f.anchors, f.records.map Prod.fst)) =
        some ([[120]], [[97], [98]]) := by decide +kernel
  obtain ⟨s, hrun, hs⟩ := Option.bind_eq_some_iff.mp hfile
  obtain ⟨f, hf, hcontent⟩ := Option.map_eq_some_iff.mp hs
  exact ⟨s, f, hrun, hf, Prod.mk.inj hcontent,
    persisted_file_is_consistent _ _ sound_emptyStore _ _ _ h s hrun f hf⟩

/-- The worker finds the text x after the copy and before the write of its shard. -/
theorem an_anchor_id_without_a_string_is_written :
    ∃ s f, exec (step plainPolicy)
        (.copyAnchors false :: List.replicate 5 (.work 0) ++ writeAll)
        (begin' emptyStore none oneCall) = some s ∧
      s.file = some f ∧ ¬Consistent f s.store.toAnchorTable := by
  have hfile : ((exec (step plainPolicy)
      (.copyAnchors false :: List.replicate 5 (.work 0) ++ writeAll)
      (begin' emptyStore none oneCall)).bind fun s =>
        s.file.map fun f => decide (Consistent f s.store.toAnchorTable)) = some false := by
    decide +kernel
  obtain ⟨s, hrun, hs⟩ := Option.bind_eq_some_iff.mp hfile
  obtain ⟨f, hf, hdecide⟩ := Option.map_eq_some_iff.mp hs
  exact ⟨s, f, hrun, hf, of_decide_eq_false hdecide⟩

end seamus.url_snapshot
