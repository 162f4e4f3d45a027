-- The table of anchor texts over the life of a store: calls of `findAnchorId`,
-- calls of `updateUrl`, and restarts, in any order.
import Seamus.UrlStoreFile
import Seamus.Library.Interleaving

open interleaving seamus.url_store seamus.url_store_file

namespace seamus.anchor_table

/-! ## Two tables that are inverse to each other -/

/-- An id is stored for a text exactly when the text stands at that id. -/
def Inverse (t : AnchorTable) : Prop :=
  ∀ text id, t.anchorToId.lookup text = some id ↔ t.idToAnchor[id]? = some text

theorem inverse_noAnchors : Inverse noAnchors := by
  intro text id
  simp [noAnchors]

variable {t : AnchorTable}

theorem Inverse.injective (h : Inverse t) {text : Bytes} {i j : Nat}
    (hi : t.idToAnchor[i]? = some text) (hj : t.idToAnchor[j]? = some text) : i = j := by
  have hij := ((h text i).mpr hi).symm.trans ((h text j).mpr hj)
  exact Option.some.inj hij

theorem Inverse.nodup (h : Inverse t) : t.idToAnchor.Nodup := by
  rw [List.nodup_iff_getElem?_ne_getElem?]
  intro i j hij hj heq
  have hjt : t.idToAnchor[j]? = some t.idToAnchor[j] := List.getElem?_eq_getElem hj
  exact absurd (h.injective (heq.trans hjt) hjt) (Nat.ne_of_lt hij)

theorem Inverse.mem_iff (h : Inverse t) (text : Bytes) :
    text ∈ t.anchorToId.keys ↔ text ∈ t.idToAnchor := by
  rw [← AList.mem_keys, ← AList.lookup_isSome, Option.isSome_iff_exists, List.mem_iff_getElem?]
  exact exists_congr (h text)

/-- The next id is the same in both tables. -/
theorem Inverse.size (h : Inverse t) : t.anchorToId.entries.length = t.idToAnchor.length := by
  have hperm : t.anchorToId.keys.Perm t.idToAnchor :=
    (List.perm_ext_iff_of_nodup t.anchorToId.keys_nodup h.nodup).mpr h.mem_iff
  rw [← hperm.length_eq, AList.keys, List.keys, List.length_map]

theorem Inverse.unknown (h : Inverse t) {text : Bytes} (hn : t.anchorToId.lookup text = none) :
    text ∉ t.idToAnchor := by
  rw [← h.mem_iff, ← AList.mem_keys]
  exact AList.lookup_eq_none.mp hn

theorem getElem?_push (texts : List Bytes) (text : Bytes) (id : Nat) :
    (texts ++ [text])[id]? = if id = texts.length then some text else texts[id]? := by
  by_cases hid : id = texts.length
  · rw [if_pos hid, hid, List.getElem?_concat_length]
  · rw [if_neg hid]
    by_cases hlt : id < texts.length
    · exact List.getElem?_append_left hlt
    · rw [List.getElem?_eq_none (by simp; omega), List.getElem?_eq_none (by omega)]

/-- A new text at the end of one table, with its place in the other. -/
theorem Inverse.push (h : Inverse t) {text : Bytes} (hn : text ∉ t.idToAnchor) :
    Inverse ⟨t.anchorToId.insert text t.idToAnchor.length, t.idToAnchor ++ [text]⟩ := by
  intro other id
  rw [getElem?_push]
  by_cases hother : other = text
  · subst hother
    rw [AList.lookup_insert]
    by_cases hid : id = t.idToAnchor.length
    · simp [hid]
    · have habsent : t.idToAnchor[id]? ≠ some other := fun hmem => hn (List.mem_of_getElem? hmem)
      simp [hid, habsent, Ne.symm hid]
  · rw [AList.lookup_insert_ne hother, h other id]
    by_cases hid : id = t.idToAnchor.length
    · simp [hid, Ne.symm hother]
    · simp [hid]

/-! ## findAnchorId keeps the tables inverse -/

theorem findAnchorId_inverse (h : Inverse t) (text : Bytes) (urlData : Option UrlData) :
    Inverse (findAnchorId text urlData t).2 := by
  rcases findAnchorId_cases text urlData t with ⟨id, _, heq⟩ | ⟨_, _, heq⟩ | ⟨hnew, _, heq⟩
  · rw [heq]; exact h
  · rw [heq]; exact h
  · rw [heq, h.size]
    exact h.push (h.unknown hnew)

/-- No text is moved. -/
theorem findAnchorId_keeps (text : Bytes) (urlData : Option UrlData) (t : AnchorTable) :
    t.idToAnchor <+: (findAnchorId text urlData t).2.idToAnchor := by
  rcases findAnchorId_cases text urlData t with ⟨id, _, heq⟩ | ⟨_, _, heq⟩ | ⟨_, _, heq⟩
  · simp only [heq, List.prefix_refl]
  · simp only [heq, List.prefix_refl]
  · simp only [heq, List.prefix_append]

theorem findAnchorId_length_le (text : Bytes) (urlData : Option UrlData) (t : AnchorTable) :
    (findAnchorId text urlData t).2.idToAnchor.length ≤ t.idToAnchor.length + 1 := by
  rcases findAnchorId_cases text urlData t with ⟨id, _, heq⟩ | ⟨_, _, heq⟩ | ⟨_, _, heq⟩ <;>
    simp [heq]

/-- The text of the id that a call returns is the one supplied. -/
theorem findAnchorId_denotes (h : Inverse t) (hsize : t.idToAnchor.length < UInt32.size)
    (text : Bytes) (urlData : Option UrlData)
    (hid : (findAnchorId text urlData t).1 ≠ noAnchorId) :
    (findAnchorId text urlData t).2.idToAnchor[(findAnchorId text urlData t).1.toNat]? =
      some text := by
  rcases findAnchorId_cases text urlData t with ⟨id, hknown, heq⟩ | ⟨_, _, heq⟩ | ⟨_, _, heq⟩
  · have hat := (h text id).mp hknown
    have hlt : id < t.idToAnchor.length := (List.getElem?_eq_some_iff.mp hat).1
    rw [heq]
    dsimp only
    rw [UInt32.toNat_ofNat_of_lt' (Nat.lt_trans hlt hsize)]
    exact hat
  · rw [heq] at hid
    exact absurd rfl hid
  · rw [heq]
    dsimp only
    rw [UInt32.toNat_ofNat_of_lt' hsize]
    exact List.getElem?_concat_length

/-- A call without a URL always finds room. -/
theorem mem_findAnchorId (h : Inverse t) (text : Bytes) :
    text ∈ (findAnchorId text none t).2.idToAnchor := by
  rcases findAnchorId_cases text none t with ⟨id, hknown, heq⟩ | ⟨_, hfull, _⟩ | ⟨_, _, heq⟩
  · rw [heq]
    exact List.mem_of_getElem? ((h text id).mp hknown)
  · exact absurd hfull (by decide)
  · rw [heq]
    exact List.mem_append_right _ List.mem_cons_self

/-! ## readFromFile -/

theorem foldl_loadAnchor_idToAnchor (texts : List Bytes) (t : AnchorTable) :
    (texts.foldl loadAnchor t).idToAnchor = t.idToAnchor ++ texts := by
  induction texts generalizing t with
  | nil => simp
  | cons text texts ih => rw [List.foldl_cons, ih]; simp [loadAnchor]

@[simp] theorem loadAnchors_idToAnchor (texts : List Bytes) :
    (loadAnchors texts).idToAnchor = texts := foldl_loadAnchor_idToAnchor texts noAnchors

theorem foldl_loadAnchor_inverse (texts : List Bytes) (t : AnchorTable) (h : Inverse t)
    (hn : (t.idToAnchor ++ texts).Nodup) : Inverse (texts.foldl loadAnchor t) := by
  induction texts generalizing t with
  | nil => exact h
  | cons text texts ih =>
    have hnew : text ∉ t.idToAnchor := by
      intro hmem
      have hdisjoint := (List.nodup_append.mp hn).2.2
      exact hdisjoint text hmem text List.mem_cons_self rfl
    apply ih (loadAnchor t text) (h.push hnew)
    rw [loadAnchor, List.append_assoc]
    exact hn

/-- The tables that `readFromFile` builds are inverse exactly when no text comes twice. -/
theorem inverse_loadAnchors_iff (texts : List Bytes) :
    Inverse (loadAnchors texts) ↔ texts.Nodup := by
  constructor
  · intro h
    have hn := h.nodup
    rw [loadAnchors_idToAnchor] at hn
    exact hn
  · intro hn
    exact foldl_loadAnchor_inverse texts noAnchors inverse_noAnchors hn

/-- After a restart the tables are inverse exactly when no two texts are cut to the same one. -/
theorem inverse_restart_iff (order : SlotOrder) (final : Bool) (s : UrlStore)
    (hsize : s.idToAnchor.length < UInt32.size) :
    Inverse (restart order final s).toAnchorTable ↔ (s.idToAnchor.map storedText).Nodup := by
  rw [restart_anchors, u32_of_lt hsize, List.take_length, inverse_loadAnchors_iff]

/-! ## The life of a store -/

/-- A call of `findAnchorId`, with the number of restarts before it. -/
structure AnchorCall where
  restarts : Nat
  text : Bytes
  id : UInt32
  deriving DecidableEq, Repr

/-- The store of the process that runs now, and all calls of `findAnchorId` so far. -/
structure Session where
  store : UrlStore
  restarts : Nat
  calls : List AnchorCall

inductive Event where
  | findAnchorId (text : Bytes) (urlData : Option UrlData)
  | updateUrl (r : Request) (priority : Nat)
  | restart (order : SlotOrder) (final : Bool)

def start : Session := ⟨emptyStore, 0, []⟩

/-- What the calls of `findAnchorId` in the loop over the anchor texts return. -/
def loopIds (isNew : Bool) (url : Bytes) : List Bytes → UrlStore → List (Bytes × UInt32)
  | [], _ => []
  | text :: texts, s =>
    (text, (findAnchorId text (findUrlData url s) s.toAnchorTable).1) ::
      loopIds isNew url texts (addAnchor isNew url s text)

/-- What the calls of `findAnchorId` in a call of `updateUrl` return. -/
def updateIds (p : Policy) (r : Request) (priority : Nat) (s : UrlStore) : List (Bytes × UInt32) :=
  match lookUp p r priority s with
  | (.known, s) => loopIds false (lowercaseUrl r.url) r.anchorText s
  | (.dropped, _) => []
  | (.unknown, s) =>
    match addUrlUnlocked r s with
    | (false, _) => []
    | (true, s) => loopIds true (lowercaseUrl r.url) r.anchorText s

def step (p : Policy) (e : Event) (s : Session) : Option Session :=
  match e with
  | .findAnchorId text urlData =>
    let (id, t) := findAnchorId text urlData s.store.toAnchorTable
    some { s with
      store := { s.store with toAnchorTable := t }
      calls := s.calls ++ [⟨s.restarts, text, id⟩] }
  | .updateUrl r priority =>
    some { s with
      store := (updateUrl p r priority s.store).2
      calls := s.calls ++
        (updateIds p r priority s.store).map fun c => ⟨s.restarts, c.1, c.2⟩ }
  | .restart order final =>
    some { s with store := restart order final s.store, restarts := s.restarts + 1 }

/-- There is room for the ids, and a restart cuts no two texts to the same one. -/
def Distinct (e : Event) (s : Session) : Prop :=
  match e with
  | .findAnchorId _ _ => s.store.idToAnchor.length < UInt32.size
  | .updateUrl r _ => s.store.idToAnchor.length + r.anchorText.length ≤ UInt32.size
  | .restart _ _ =>
    s.store.idToAnchor.length < UInt32.size ∧ (s.store.idToAnchor.map storedText).Nodup

instance (e : Event) (s : Session) : Decidable (Distinct e s) :=
  match e with
  | .findAnchorId _ _ => Nat.decLt _ _
  | .updateUrl _ _ => Nat.decLe _ _
  | .restart _ _ => instDecidableAnd

/-- Two calls can speak of the same entry: no restart between them cut their text. -/
def Comparable (c d : AnchorCall) : Prop := c.restarts = d.restarts ∨ storedText c.text = c.text

structure Agree (s : Session) : Prop where
  inverse : Inverse s.store.toAnchorTable
  epoch : ∀ c ∈ s.calls, c.restarts ≤ s.restarts
  denoted : ∀ c ∈ s.calls, c.id ≠ noAnchorId →
    c.restarts = s.restarts ∨ storedText c.text = c.text →
    s.store.idToAnchor[c.id.toNat]? = some c.text
  same : ∀ c ∈ s.calls, ∀ d ∈ s.calls, c.text = d.text → c.id ≠ noAnchorId → d.id ≠ noAnchorId →
    Comparable c d → c.id = d.id

theorem agree_start : Agree start := by
  refine ⟨inverse_noAnchors, ?_, ?_, ?_⟩ <;> intro c hc <;> cases hc

/-- A store whose table of anchor texts is the same agrees with the same calls. -/
theorem Agree.congr {s : UrlStore} {n : Nat} {calls : List AnchorCall} (h : Agree ⟨s, n, calls⟩)
    {s' : UrlStore} (ht : s'.toAnchorTable = s.toAnchorTable) : Agree ⟨s', n, calls⟩ := by
  obtain ⟨hinverse, hepoch, hdenoted, hsame⟩ := h
  refine ⟨?_, hepoch, ?_, hsame⟩
  · rw [ht]; exact hinverse
  · rw [ht]; exact hdenoted

/-- One call of `findAnchorId`. -/
theorem Agree.call {s : UrlStore} {n : Nat} {calls : List AnchorCall} (h : Agree ⟨s, n, calls⟩)
    (hsize : s.idToAnchor.length < UInt32.size) (text : Bytes) (urlData : Option UrlData)
    {s' : UrlStore} (ht : s'.toAnchorTable = (findAnchorId text urlData s.toAnchorTable).2) :
    Agree ⟨s', n, calls ++ [⟨n, text, (findAnchorId text urlData s.toAnchorTable).1⟩]⟩ := by
  obtain ⟨hinverse, hepoch, hdenoted, hsame⟩ := h
  have hinverse' : Inverse s'.toAnchorTable := by
    rw [ht]; exact findAnchorId_inverse hinverse text urlData
  have hnew : ∀ hid : (findAnchorId text urlData s.toAnchorTable).1 ≠ noAnchorId,
      s'.idToAnchor[(findAnchorId text urlData s.toAnchorTable).1.toNat]? = some text := by
    rw [ht]; exact findAnchorId_denotes hinverse hsize text urlData
  have hkeeps : s.idToAnchor <+: s'.idToAnchor := by
    rw [ht]; exact findAnchorId_keeps text urlData _
  have hold : ∀ c ∈ calls, c.id ≠ noAnchorId → c.restarts = n ∨ storedText c.text = c.text →
      s'.idToAnchor[c.id.toNat]? = some c.text := by
    intro c hc hid hwhen
    have hat := hdenoted c hc hid hwhen
    obtain ⟨more, hmore⟩ := hkeeps
    rw [← hmore, List.getElem?_append_left (List.getElem?_eq_some_iff.mp hat).1]
    exact hat
  -- An earlier call and the new one stand at one index, since the tables are inverse.
  have hmixed : ∀ c ∈ calls, c.text = text → c.id ≠ noAnchorId →
      (findAnchorId text urlData s.toAnchorTable).1 ≠ noAnchorId →
      c.restarts = n ∨ storedText c.text = c.text →
      c.id = (findAnchorId text urlData s.toAnchorTable).1 := by
    intro c hc htext hid hid' hwhen
    have hat := hold c hc hid hwhen
    rw [htext] at hat
    exact UInt32.toNat_inj.mp (hinverse'.injective hat (hnew hid'))
  refine ⟨hinverse', ?_, ?_, ?_⟩
  · intro c hc
    rcases List.mem_append.mp hc with hc | hc
    · exact hepoch c hc
    · rw [List.mem_singleton.mp hc]
  · intro c hc hid hwhen
    rcases List.mem_append.mp hc with hc | hc
    · exact hold c hc hid hwhen
    · rw [List.mem_singleton.mp hc] at hid ⊢
      exact hnew hid
  · intro c hc d hd htext hcid hdid hwhen
    rcases List.mem_append.mp hc with hc | hc <;> rcases List.mem_append.mp hd with hd | hd
    · exact hsame c hc d hd htext hcid hdid hwhen
    · rw [List.mem_singleton.mp hd] at htext hdid hwhen ⊢
      exact hmixed c hc htext hcid hdid hwhen
    · rw [List.mem_singleton.mp hc] at htext hcid hwhen ⊢
      have hwhen' : d.restarts = n ∨ storedText d.text = d.text := by
        rw [← htext]
        exact hwhen.imp Eq.symm id
      exact (hmixed d hd htext.symm hdid hcid hwhen').symm
    · rw [List.mem_singleton.mp hc, List.mem_singleton.mp hd]

/-- The loop over the anchor texts. -/
theorem Agree.loop (isNew : Bool) (url : Bytes) (texts : List Bytes) {s : UrlStore} {n : Nat}
    {calls : List AnchorCall} (h : Agree ⟨s, n, calls⟩)
    (hsize : s.idToAnchor.length + texts.length ≤ UInt32.size) :
    Agree ⟨texts.foldl (addAnchor isNew url) s, n,
      calls ++ (loopIds isNew url texts s).map fun c => ⟨n, c.1, c.2⟩⟩ := by
  induction texts generalizing s calls with
  | nil => simpa [loopIds] using h
  | cons text texts ih =>
    have htable := addAnchor_anchors isNew url s text
    have hlength := findAnchorId_length_le text (findUrlData url s) s.toAnchorTable
    rw [← htable] at hlength
    rw [List.length_cons] at hsize
    have hone := h.call (by omega) text (findUrlData url s) htable
    have hrest := ih hone (by omega)
    rw [List.foldl_cons, loopIds, List.map_cons, List.append_cons]
    exact hrest

/-! ## The steps -/

theorem Agree.updateUrl {s : UrlStore} {n : Nat} {calls : List AnchorCall}
    (h : Agree ⟨s, n, calls⟩) (p : Policy) (r : Request) (priority : Nat)
    (hsize : s.idToAnchor.length + r.anchorText.length ≤ UInt32.size) :
    Agree ⟨(updateUrl p r priority s).2, n,
      calls ++ (updateIds p r priority s).map fun c => ⟨n, c.1, c.2⟩⟩ := by
  have htable := lookUp_anchors p r priority s
  unfold url_store.updateUrl updateIds
  generalize lookUp p r priority s = found at htable ⊢
  obtain ⟨found, s'⟩ := found
  dsimp only at htable
  have h' : Agree ⟨s', n, calls⟩ := h.congr htable
  rw [← htable] at hsize
  cases found with
  | known => exact h'.loop false _ _ hsize
  | dropped => simpa using h'
  | unknown =>
    have htable' := addUrlUnlocked_anchors r s'
    dsimp only
    generalize addUrlUnlocked r s' = added at htable' ⊢
    obtain ⟨isNew, s''⟩ := added
    dsimp only at htable'
    have h'' : Agree ⟨s'', n, calls⟩ := h'.congr htable'
    rw [← htable'] at hsize
    cases isNew with
    | false => simpa using h''
    | true => exact h''.loop true _ _ hsize

theorem Agree.restart {s : UrlStore} {n : Nat} {calls : List AnchorCall}
    (h : Agree ⟨s, n, calls⟩) (order : SlotOrder) (final : Bool)
    (hsize : s.idToAnchor.length < UInt32.size) (hn : (s.idToAnchor.map storedText).Nodup) :
    Agree ⟨restart order final s, n + 1, calls⟩ := by
  obtain ⟨_, hepoch, hdenoted, hsame⟩ := h
  refine ⟨(inverse_restart_iff order final s hsize).mpr hn, ?_, ?_, hsame⟩
  · intro c hc
    exact Nat.le_succ_of_le (hepoch c hc)
  · intro c hc hid hwhen
    -- The call was before this restart, so its text is one that stays as it is.
    have hshort : storedText c.text = c.text := by
      rcases hwhen with hnow | hshort
      · have hle : c.restarts ≤ n := hepoch c hc
        rw [hnow] at hle
        exact absurd hle (Nat.not_succ_le_self n)
      · exact hshort
    have hat := hdenoted c hc hid (Or.inr hshort)
    rw [restart_anchors, u32_of_lt hsize, List.take_length, loadAnchors_idToAnchor,
      List.getElem?_map, hat, Option.map_some, hshort]

theorem step_agree (p : Policy) (e : Event) (s s' : Session) (h : Agree s) (hd : Distinct e s)
    (hstep : step p e s = some s') : Agree s' := by
  cases e with
  | findAnchorId text urlData =>
    rw [← Option.some.inj hstep]
    exact h.call hd text urlData rfl
  | updateUrl r priority =>
    rw [← Option.some.inj hstep]
    exact h.updateUrl p r priority hd
  | restart order final =>
    rw [← Option.some.inj hstep]
    exact h.restart order final hd.1 hd.2

theorem step_total (p : Policy) (e : Event) (s : Session) : ∃ s', step p e s = some s' := by
  cases e <;> exact ⟨_, rfl⟩

/-- While no restart cuts two texts to the same one, the two tables stay inverse to each
other, the id of a call stands for the text that was supplied, and two calls with the same
text give the same id. -/
theorem anchor_tables_stay_inverse (p : Policy) (events : List Event)
    (h : Meets (step p) Distinct events start) :
    ∃ s, exec (step p) events start = some s ∧
      Inverse s.store.toAnchorTable ∧
      (∀ c ∈ s.calls, c.id ≠ noAnchorId →
        c.restarts = s.restarts ∨ storedText c.text = c.text →
        s.store.idToAnchor[c.id.toNat]? = some c.text) ∧
      ∀ c ∈ s.calls, ∀ d ∈ s.calls, c.text = d.text → c.id ≠ noAnchorId → d.id ≠ noAnchorId →
        Comparable c d → c.id = d.id := by
  obtain ⟨s, hrun⟩ := exec_total (step_total p) events start
  obtain ⟨hinverse, _, hdenoted, hsame⟩ := exec_invariant (step_agree p) agree_start h hrun
  exact ⟨s, hrun, hinverse, hdenoted, hsame⟩

/-- A call, a restart, and the same call again. -/
theorem anchor_tables_stay_inverse_over_a_restart :
    ∃ s, exec (step plainPolicy)
        [.findAnchorId [104, 105] none, .restart listOrder false, .findAnchorId [104, 105] none]
        start = some s ∧
      s.calls.map AnchorCall.id = [0, 0] ∧ Inverse s.store.toAnchorTable := by
  have h : Meets (step plainPolicy) Distinct
      [.findAnchorId [104, 105] none, .restart listOrder false, .findAnchorId [104, 105] none]
      start := by decide +kernel
  have hids : (exec (step plainPolicy)
      [.findAnchorId [104, 105] none, .restart listOrder false, .findAnchorId [104, 105] none]
      start).map (fun s => s.calls.map AnchorCall.id) = some [0, 0] := by decide +kernel
  obtain ⟨s, hrun, hinverse, _⟩ := anchor_tables_stay_inverse _ _ h
  rw [hrun] at hids
  exact ⟨s, hrun, Option.some.inj hids, hinverse⟩

/-- Two texts that a restart cuts to the same one. -/
theorem not_inverse_restart (order : SlotOrder) (final : Bool) (s : UrlStore)
    (hsize : s.idToAnchor.length < UInt32.size) {a b : Bytes} (ha : a ∈ s.idToAnchor)
    (hb : b ∈ s.idToAnchor) (hne : a ≠ b) (hcut : storedText a = storedText b) :
    ¬Inverse (restart order final s).toAnchorTable := by
  rw [inverse_restart_iff order final s hsize]
  intro hn
  exact hne (List.inj_on_of_nodup_map hn ha hb hcut)

/-- So two such texts, called for in a fresh store, end in broken tables. -/
theorem restart_breaks_the_tables {a b : Bytes} (hne : a ≠ b) (hcut : storedText a = storedText b) :
    ∃ s, exec (step plainPolicy)
        [.findAnchorId a none, .findAnchorId b none, .restart listOrder false] start = some s ∧
      ¬Inverse s.store.toAnchorTable := by
  let t := (findAnchorId a none noAnchors).2
  let t' := (findAnchorId b none t).2
  have ht : Inverse t := findAnchorId_inverse inverse_noAnchors a none
  have hfirst : a ∈ t'.idToAnchor :=
    (findAnchorId_keeps b none t).subset (mem_findAnchorId inverse_noAnchors a)
  have hsecond : b ∈ t'.idToAnchor := mem_findAnchorId ht b
  have hsize : t'.idToAnchor.length < UInt32.size := by
    have h : t.idToAnchor.length ≤ 0 + 1 := findAnchorId_length_le a none noAnchors
    have h' : t'.idToAnchor.length ≤ t.idToAnchor.length + 1 := findAnchorId_length_le b none t
    exact Nat.lt_of_le_of_lt (Nat.le_trans h' (Nat.succ_le_succ h)) (by decide)
  exact ⟨_, rfl, not_inverse_restart listOrder false { emptyStore with toAnchorTable := t' }
    hsize hfirst hsecond hne hcut⟩

/-- A text that begins with 512 times the letter a. -/
def longText (last : UInt8) : Bytes := List.replicate 512 97 ++ [last]

theorem storedText_longText (last : UInt8) : storedText (longText last) = List.replicate 512 97 := by
  have hlen : (longText last).length < 2 ^ 32 := by
    rw [longText, List.length_append, List.length_replicate, List.length_singleton]
    decide
  rw [storedText, writtenText_of_lt hlen, longText]
  exact List.take_left' List.length_replicate

/-- Two long texts that differ in their last letter only are one text after a restart. -/
theorem long_anchor_texts_break_the_tables :
    ∃ s, exec (step plainPolicy)
        [.findAnchorId (longText 98) none, .findAnchorId (longText 99) none,
          .restart listOrder false] start = some s ∧
      ¬Inverse s.store.toAnchorTable := by
  have hne : longText 98 ≠ longText 99 := by
    intro h
    exact absurd (List.append_cancel_left h) (by decide)
  apply restart_breaks_the_tables hne
  rw [storedText_longText, storedText_longText]

end seamus.anchor_table
