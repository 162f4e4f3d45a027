-- The output buffers of the parser stay inside of their memory, but for one call: the conversion
-- of an anchor word that was rejected or cut begins before the buffer.
import Seamus.OutputBuffers
import Seamus.ParserBounds

open seamus.html_tags seamus.html seamus.parser_calls faults

namespace seamus.output_buffers

/-! ## Memory -/

section Memory

variable {max : Nat} {data : Vector UInt8 max}

/-- What the buffer holds. -/
def Buffer.text (b : Buffer max) : Bytes := b.data.toList.take b.size

theorem text_length (b : Buffer max) : b.text.length = b.size := by
  have hle := b.size_le
  unfold Buffer.text
  rw [List.length_take, Vector.length_toList]
  omega

theorem text_fresh (data : Vector UInt8 max) : (Buffer.fresh data).text = [] := rfl

theorem update_ok {i : Nat} (h : i < max) (f : UInt8 → UInt8) :
    update (i : Int) f data = .ok (data.set i (f data[i])) := by
  unfold update
  rw [dif_pos ⟨Int.natCast_nonneg i, h⟩]
  rfl

theorem update_outside {i : Int} (h : i < 0) (f : UInt8 → UInt8) :
    update i f data = .error .outside := by
  unfold update
  rw [dif_neg (by omega)]

theorem take_set {i : Nat} (h : i < max) (c : UInt8) :
    (data.set i c).toList.take (i + 1) = data.toList.take i ++ [c] := by
  have hi : i < data.toList.length := by rwa [Vector.length_toList]
  rw [Vector.toList_set, List.take_add_one, List.getElem?_set_self hi, List.take_set_of_le le_rfl]
  rfl

theorem memcpy_ends (i : Nat) (str : Bytes) (h : i + str.length ≤ max) :
    Ends (memcpy i str data) fun data' =>
      data'.toList.take (i + str.length) = data.toList.take i ++ str := by
  induction str generalizing i data with
  | nil => exact ends_ok (by rw [List.length_nil, Nat.add_zero, List.append_nil])
  | cons c str ih =>
    rw [List.length_cons] at h
    have hi : i < max := by omega
    rw [memcpy, update_ok hi, ok_bind]
    refine (ih (i + 1) (by omega)).mono fun data' hdata => ?_
    rw [take_set hi, List.append_assoc, Nat.add_assoc, Nat.add_comm 1] at hdata
    exact hdata

theorem copy_ends (b : Buffer max) (str : Bytes) (h : b.size + str.length ≤ max) :
    Ends (b.copy str) fun b' => b'.text = b.text ++ str := by
  unfold Buffer.copy Buffer.grow
  refine (memcpy_ends b.size str h).bind fun data hdata => ?_
  dsimp only
  rw [dif_pos h]
  exact ends_ok hdata

/-- What a push adds to the text. -/
def pushed (str : Bytes) (delim : UInt8) : Bytes :=
  str ++ if delim = NULL_DELIM then [] else [delim]

theorem pushed_length (str : Bytes) {delim : UInt8} (h : delim ≠ NULL_DELIM) :
    (pushed str delim).length = str.length + 1 := by
  unfold pushed
  rw [if_neg h, List.length_append, List.length_singleton]

theorem append_ends (b : Buffer max) (str : Bytes) (delim : UInt8)
    (h : b.size + str.length + 1 ≤ max) :
    Ends (b.append str delim) fun b' => b'.text = b.text ++ pushed str delim := by
  unfold Buffer.append pushed
  refine (copy_ends b str (by omega)).bind fun b' hb' => ?_
  have hsize : b'.size = b.size + str.length := by
    rw [← text_length, hb', List.length_append, text_length]
  split
  · rw [List.append_nil]
    exact ends_ok hb'
  · refine (copy_ends b' [delim] (by rw [hsize]; exact h)).mono fun b'' hb'' => ?_
    rw [hb'', hb', List.append_assoc]

theorem convertLoop_ends (turns start : Nat) (h : start + turns ≤ max) :
    Ends (convertLoop turns start data) fun data' => data'.toList.take (start + turns) =
      data.toList.take start ++ lowercase ((data.toList.take (start + turns)).drop start) := by
  induction turns generalizing start data with
  | zero =>
    refine ends_ok ?_
    rw [Nat.add_zero, List.drop_take, Nat.sub_self, List.take_zero, lowercase, List.map_nil,
      List.append_nil]
  | succ turns ih =>
    have hstart : start < max := by omega
    rw [convertLoop, update_ok hstart, ok_bind]
    refine (ih (start + 1) (by omega)).mono fun data' hdata => ?_
    have hlength : start < (data.toList.take (start + (turns + 1))).length := by
      rw [List.length_take, Vector.length_toList]
      omega
    have hhead : (data.toList.take (start + (turns + 1)))[start] = data[start] := by
      rw [List.getElem_take, Vector.getElem_toList]
    have hsum : start + 1 + turns = start + (turns + 1) := by omega
    rw [take_set hstart, Vector.toList_set, List.take_set, List.drop_set_of_lt (Nat.lt_succ_self _),
      List.append_assoc, hsum] at hdata
    rw [hdata, List.drop_eq_getElem_cons hlength, hhead]
    rfl

theorem int32_of_lt {n : Nat} (h : n < 2 ^ 31) : int32 n = n :=
  Int.bmod_eq_of_le (by omega) (by omega)

/-- A difference below 0 is one again as an `int`, unless it is out of the range of an `int`. -/
theorem int32_neg {m n : Nat} (hlt : m < n) (hrange : n ≤ m + 2 ^ 31) :
    int32 (u64Sub m n) = (m : Int) - n := by
  unfold int32 u64Sub
  rw [if_neg (by omega)]
  have hwrap : ((2 ^ 64 - (n - m) : Nat) : Int) = ((m : Int) - n) + (2 ^ 32 : Nat) * 2 ^ 32 := by
    omega
  rw [hwrap, Int.add_mul_bmod_self_left]
  exact Int.bmod_eq_of_le (by omega) (by omega)

theorem caseConvert_stop (b : Buffer max) {stop : Int} (h : stop = b.size ∨ stop = max) :
    (if stop = max then (b.size : Int) else stop) = b.size := by
  split
  · rfl
  · exact h.resolve_right ‹_›

theorem caseConvert_ends (b : Buffer max) {start : Nat} {stop : Int} (hstart : start ≤ b.size)
    (hstop : stop = b.size ∨ stop = max) :
    Ends (b.caseConvert start stop) fun b' =>
      b'.text = b.text.take start ++ lowercase (b.text.drop start) := by
  unfold Buffer.caseConvert
  rw [caseConvert_stop b hstop]
  have hsum : start + ((b.size : Int) - start).toNat = b.size := by omega
  refine (convertLoop_ends _ start (by rw [hsum]; exact b.size_le)).bind fun data hdata => ?_
  rw [hsum] at hdata
  refine ends_ok ?_
  unfold Buffer.text
  rw [hdata, List.take_take, Nat.min_eq_left hstart]

theorem caseConvert_outside (b : Buffer max) {start : Int} (hstart : start < 0) :
    b.caseConvert start b.size = .error .outside := by
  unfold Buffer.caseConvert
  rw [caseConvert_stop b (Or.inl rfl)]
  dsimp only
  obtain ⟨turns, hturns⟩ : ∃ n, ((b.size : Int) - start).toNat = n + 1 :=
    ⟨((b.size : Int) - start).toNat - 1, by omega⟩
  rw [hturns, convertLoop, update_outside hstart]
  rfl

end Memory

/-! ## Pushes -/

section Pushes

variable {max : Nat} {b : Buffer max} {a : BufferArray}

/-- The buffer holds what it holds without the bounds. -/
def Shows (b : Buffer max) (a : BufferArray) : Prop := b.text = a.data

theorem Shows.size (h : Shows b a) : b.size = a.data.length := by
  rw [← text_length, h]

theorem roomFor_eq {size : Nat} (len : Nat) (h : size + 2 ≤ max) :
    roomFor max size len = min len (max - size - 2) := by
  have hroom : u64Sub (u64Sub max size) 2 = max - size - 2 := by
    have hsize : u64Sub max size = max - size := if_pos (by omega)
    rw [hsize]
    exact if_pos (by omega)
  unfold roomFor
  rw [hroom]
  split
  · split <;> omega
  · omega

/-- A push does what it does without the bounds, if the flush does and leaves room. -/
theorem pushBack_ends {flush : Buffer max → Checked (Buffer max)}
    {flushArray : BufferArray → BufferArray} (str : Bytes) (delim : UInt8) (hb : Shows b a)
    (hflush : Ends (flush b) fun b' => Shows b' (flushArray a) ∧ b'.size + 2 ≤ max) :
    Ends (pushBack flush str delim b) fun b' =>
      Shows b' (html.pushBack max flushArray str delim a) := by
  have happend {b : Buffer max} {a : BufferArray} (hb : Shows b a) (str : Bytes)
      (hroom : b.size + str.length + 1 ≤ max) :
      Ends (b.append str delim) fun b' => Shows b' (a.append str delim) := by
    refine (append_ends b str delim hroom).mono fun b' htext => ?_
    unfold Shows BufferArray.append
    rw [htext, hb, pushed, List.append_assoc]
  unfold pushBack html.pushBack
  rw [← hb.size]
  split
  · exact ends_ok hb
  split
  · refine hflush.bind fun b' hb' => ?_
    obtain ⟨hb', hroom⟩ := hb'
    dsimp only
    rw [← hb'.size]
    split
    · refine happend hb' _ ?_
      rw [List.length_take, roomFor_eq _ hroom]
      omega
    · exact happend hb' str (by omega)
  · exact happend hb str (by omega)

end Pushes

/-- The words may always be flushed. -/
theorem flushWords_ends {b : Buffer MAX_WORD_MEMORY} {a : BufferArray} (hb : Shows b a) :
    Ends (flushWords b) fun b' => Shows b' (html.flushWords a) ∧ b'.size = 0 := by
  unfold flushWords html.flushWords
  rw [← hb.size]
  split
  · have hall := caseConvert_ends b (Nat.zero_le b.size) (Or.inr rfl)
    exact hall.bind fun b' _ => ends_ok ⟨rfl, rfl⟩
  · exact ends_ok ⟨hb, by omega⟩

/-! ## The header of a batch -/

section Header

variable {q : PageInput}

def PageInput.domain (q : PageInput) : Bytes := extractDomain q.parser.url

/-- The header without the domain. -/
def PageInput.lead (q : PageInput) : List (Bytes × UInt8) :=
  [(ascii "<doc>", newline), (ascii (toString q.hops.toNat), space),
    (ascii (toString q.domainHops.toNat), newline)]

def PageInput.leadText (q : PageInput) : Bytes := q.lead.flatMap fun p => pushed p.1 p.2

/-- What the header leaves in an empty buffer. A domain longer than the buffer is rejected. -/
def PageInput.headerText (q : PageInput) : Bytes :=
  q.leadText ++ if MAX_LINK_MEMORY < q.domain.length then [] else pushed q.domain newline

/-- The domain never has room after the lead, so that every callback calls the next one. -/
def PageInput.Endless (q : PageInput) : Prop :=
  q.domain.length ≤ MAX_LINK_MEMORY ∧ MAX_LINK_MEMORY ≤ q.leadText.length + q.domain.length + 10

theorem toString_length (n : UInt16) : (ascii (toString n.toNat)).length ≤ 5 := by
  have hlt : n.toNat < 10 ^ 5 := Nat.lt_trans n.toNat_lt (by decide)
  unfold ascii
  rw [List.length_map, Nat.toString_eq_repr, Nat.toList_repr]
  exact (Nat.length_toDigits_le_iff (by decide) (by decide)).mpr hlt

theorem leadText_length (q : PageInput) : 0 < q.leadText.length ∧ q.leadText.length ≤ 18 := by
  have hhops := toString_length q.hops
  have hdomainHops := toString_length q.domainHops
  have hlength : q.leadText.length = 6 + ((ascii (toString q.hops.toNat)).length + 1 +
      ((ascii (toString q.domainHops.toNat)).length + 1)) := by
    unfold PageInput.leadText PageInput.lead
    simp only [List.flatMap_cons, List.flatMap_nil, List.length_append, List.length_nil,
      pushed_length _ newline_ne_null, pushed_length _ space_ne_null]
    rfl
  omega

theorem headerText_length (h : ¬q.Endless) :
    0 < q.headerText.length ∧ q.headerText.length + 10 ≤ MAX_LINK_MEMORY := by
  obtain ⟨hpos, hlead⟩ := leadText_length q
  unfold PageInput.Endless at h
  unfold PageInput.headerText
  rw [List.length_append]
  split
  · exact ⟨by omega, by rw [List.length_nil]; unfold MAX_LINK_MEMORY; omega⟩
  · rw [pushed_length q.domain newline_ne_null]
    omega

section Push

variable {max : Nat} {flush : Buffer max → Checked (Buffer max)} {b : Buffer max} {str : Bytes}
  {delim : UInt8}

theorem pushBack_room (h : b.size + str.length + 10 < max) :
    Ends (pushBack flush str delim b) fun b' => b'.text = b.text ++ pushed str delim := by
  unfold pushBack
  rw [if_neg (by omega), if_neg (by omega)]
  exact append_ends b str delim (by omega)

theorem pushBack_stops {fault : Fault} (hlength : str.length ≤ max)
    (hfull : max ≤ b.size + str.length + 10) (hflush : flush b = .error fault) :
    pushBack flush str delim b = .error fault := by
  unfold pushBack
  rw [if_neg (Nat.not_lt.mpr hlength), if_pos hfull, hflush]
  rfl

end Push

theorem pushAll_append (flush : Buffer MAX_LINK_MEMORY → Checked (Buffer MAX_LINK_MEMORY))
    (pushes more : List (Bytes × UInt8)) (b : Buffer MAX_LINK_MEMORY) :
    pushAll flush (pushes ++ more) b = pushAll flush pushes b >>= pushAll flush more := by
  induction pushes generalizing b with
  | nil => rfl
  | cons push pushes ih =>
    rw [List.cons_append, pushAll, pushAll]
    cases pushBack flush push.1 push.2 b with
    | error e => rfl
    | ok b' => exact ih b'

theorem pushAll_ends {flush : Buffer MAX_LINK_MEMORY → Checked (Buffer MAX_LINK_MEMORY)}
    (pushes : List (Bytes × UInt8)) (b : Buffer MAX_LINK_MEMORY)
    (h : b.size + (pushes.flatMap fun p => pushed p.1 p.2).length + 10 < MAX_LINK_MEMORY) :
    Ends (pushAll flush pushes b) fun b' =>
      b'.text = b.text ++ pushes.flatMap fun p => pushed p.1 p.2 := by
  induction pushes generalizing b with
  | nil => exact ends_ok (by rw [List.flatMap_nil, List.append_nil])
  | cons push pushes ih =>
    obtain ⟨str, delim⟩ := push
    rw [List.flatMap_cons, List.length_append] at h
    dsimp only at h
    have hlength : (pushed str delim).length = str.length +
        (if delim = NULL_DELIM then ([] : Bytes) else [delim]).length := List.length_append
    rw [pushAll, List.flatMap_cons]
    refine (pushBack_room (by omega)).bind fun b' hb' => ?_
    have hsize : b'.size = b.size + (pushed str delim).length := by
      rw [← text_length, hb', List.length_append, text_length]
    refine (ih b' (by omega)).mono fun b'' hb'' => ?_
    rw [hb'', hb', List.append_assoc]

variable (flush : Buffer MAX_LINK_MEMORY → Checked (Buffer MAX_LINK_MEMORY))
  (data : Vector UInt8 MAX_LINK_MEMORY)

theorem lead_ends (q : PageInput) :
    Ends (pushAll flush q.lead (.fresh data)) fun b => b.text = q.leadText := by
  refine (pushAll_ends q.lead (.fresh data) ?_).mono fun b hb => ?_
  · have hlead := (leadText_length q).2
    unfold PageInput.leadText at hlead
    have hfresh : (Buffer.fresh data).size = 0 := rfl
    have hmax : MAX_LINK_MEMORY = 8192 := rfl
    omega
  · rw [hb, text_fresh, List.nil_append]
    rfl

/-- The header is the lead and the domain. -/
theorem header_eq (q : PageInput) (b : Buffer MAX_LINK_MEMORY) :
    pushAll flush q.header b =
      pushAll flush q.lead b >>= fun b => pushBack flush q.domain newline b := by
  have hsplit : q.header = q.lead ++ [(q.domain, newline)] := rfl
  rw [hsplit, pushAll_append]
  congr 1
  funext b
  rw [pushAll]
  cases pushBack flush q.domain newline b <;> rfl

theorem header_ends (h : ¬q.Endless) :
    Ends (pushAll flush q.header (.fresh data)) fun b => b.text = q.headerText := by
  rw [header_eq]
  refine (lead_ends flush data q).bind fun b hb => ?_
  have hsize : b.size = q.leadText.length := by rw [← text_length, hb]
  unfold PageInput.Endless at h
  unfold PageInput.headerText
  by_cases hlong : MAX_LINK_MEMORY < q.domain.length
  · rw [if_pos hlong, List.append_nil, pushBack, if_pos hlong]
    exact ends_ok hb
  · rw [if_neg hlong]
    refine (pushBack_room (by omega)).mono fun b' hb' => ?_
    rw [hb', hb]

/-- A header whose domain has no room needs a flush. -/
theorem header_stops {fault : Fault} (h : q.Endless)
    (hflush : ∀ b, 0 < b.size → flush b = .error fault) :
    pushAll flush q.header (.fresh data) = .error fault := by
  obtain ⟨b, hrun, hb⟩ := lead_ends flush data q
  have hsize : b.size = q.leadText.length := by rw [← text_length, hb]
  have hpos : 0 < b.size := hsize ▸ (leadText_length q).1
  rw [header_eq, hrun, ok_bind]
  exact pushBack_stops h.1 (hsize ▸ h.2) (hflush b hpos)

end Header

/-! ## The flush of the links -/

section Links

variable {q : PageInput} {levels : Nat} {b : Buffer MAX_LINK_MEMORY} {a : BufferArray}

theorem pushDocend_ends (b : Buffer MAX_LINK_MEMORY) : Ends (pushDocend b) fun _ => True := by
  unfold pushDocend
  split
  · rename_i hroom
    have htag : (ascii "\n</doc>\n").length = 8 := rfl
    exact (copy_ends b _ (htag ▸ hroom)).mono fun _ _ => trivial
  · exact ends_ok trivial

theorem flushLinks_unended (h : q.Endless) (levels : Nat) (b : Buffer MAX_LINK_MEMORY)
    (hpos : 0 < b.size) : flushLinks q.header levels b = .error .unended := by
  induction levels generalizing b with
  | zero =>
    obtain ⟨b', hrun, -⟩ := pushDocend_ends b
    rw [flushLinks, if_pos hpos, hrun, ok_bind]
    exact header_stops _ b'.data h fun _ _ => rfl
  | succ levels ih =>
    obtain ⟨b', hrun, -⟩ := pushDocend_ends b
    rw [flushLinks, if_pos hpos, hrun, ok_bind]
    exact header_stops _ b'.data h ih

/-- The flush does what it does without the bounds, if the header fits. -/
theorem flushLinks_ends (h : ¬q.Endless) (hb : Shows b a) :
    Ends (flushLinks q.header levels b) fun b' =>
      Shows b' (html.flushLinks q.headerText a) ∧ b'.size + 2 ≤ MAX_LINK_MEMORY := by
  have hheader (flush : Buffer MAX_LINK_MEMORY → Checked (Buffer MAX_LINK_MEMORY))
      (b : Buffer MAX_LINK_MEMORY) : Ends (pushAll flush q.header b.reset) fun b' =>
        b'.text = q.headerText ∧ b'.size + 2 ≤ MAX_LINK_MEMORY := by
    refine (header_ends flush b.data h).mono fun b' hb' => ⟨hb', ?_⟩
    have hlength := (headerText_length h).2
    rw [← text_length, hb']
    omega
  unfold flushLinks html.flushLinks
  rw [← hb.size]
  split
  · refine (pushDocend_ends b).bind fun b' _ => ?_
    cases levels with
    | zero => exact hheader _ b'
    | succ levels => exact hheader _ b'
  · exact ends_ok ⟨hb, by unfold MAX_LINK_MEMORY; omega⟩

end Links

/-! ## Calls -/

/-- An anchor word that is no longer than what its push leaves in the buffer, which is cut to two
bytes less than the buffer has, and a delimiter. -/
def WordFits : Call → Prop
  | .anchorWord str delim =>
    str.length + 3 ≤ MAX_LINK_MEMORY + if delim = NULL_DELIM then 0 else 1
  | .word _ _ | .link _ _ => True

instance (call : Call) : Decidable (WordFits call) := by
  unfold WordFits
  split <;> infer_instance

theorem append_length (a : BufferArray) (str : Bytes) (delim : UInt8) :
    (a.append str delim).data.length =
      a.data.length + str.length + if delim = NULL_DELIM then 0 else 1 := by
  unfold BufferArray.append
  rw [List.length_append, List.length_append]
  split <;> rfl

/-- Where a word ends up, there is as much before the end of the buffer, unless it is too long. -/
theorem pushLink_length {header : Bytes} {a : BufferArray}
    (hheader : 0 < header.length ∧ header.length + 10 ≤ MAX_LINK_MEMORY)
    (ha : 0 < a.data.length ∧ a.data.length ≤ MAX_LINK_MEMORY) (str : Bytes) (delim : UInt8) :
    0 < (html.pushLink header str delim a).data.length ∧
      (str.length + 1 ≤ (html.pushLink header str delim a).data.length ↔
        WordFits (.anchorWord str delim)) := by
  have hdelim : (if delim = NULL_DELIM then 0 else 1) ≤ 1 := by split <;> omega
  have hflush : (html.flushLinks header a).data = header := by
    unfold html.flushLinks
    rw [if_pos ha.1]
  unfold html.pushLink html.pushBack WordFits
  split
  · omega
  split
  · dsimp only
    rw [hflush]
    split
    · rw [append_length, hflush, List.length_take, roomFor_eq _ (by omega)]
      omega
    · rw [append_length, hflush]
      omega
  · rw [append_length]
    omega

/-- The two buffers, and what they hold without the bounds. The links have a header. -/
structure Stands (b : Buffers) (s : BufferArray × BufferArray) : Prop where
  words : Shows b.words s.1
  links : Shows b.links s.2
  begun : 0 < s.2.data.length

/-- What a call does to the two buffers without the bounds. -/
def stepCall (header : Bytes) (s : BufferArray × BufferArray) (call : Call) :
    BufferArray × BufferArray :=
  (call.onWords s.1, call.onLinks header s.2)

section Calls

variable {q : PageInput} {levels : Nat} {b : Buffers} {s : BufferArray × BufferArray}

theorem pushWord_ends {words : Buffer MAX_WORD_MEMORY} {a : BufferArray} (hb : Shows words a)
    (str : Bytes) (delim : UInt8) :
    Ends (pushBack flushWords str delim words) fun b' => Shows b' (html.pushWord str delim a) := by
  refine pushBack_ends str delim hb ((flushWords_ends hb).mono fun b' hb' => ⟨hb'.1, ?_⟩)
  have hmax : MAX_WORD_MEMORY = 32768 := rfl
  omega

theorem pushLink_ends {links : Buffer MAX_LINK_MEMORY} {a : BufferArray} (h : ¬q.Endless)
    (hb : Shows links a) (str : Bytes) (delim : UInt8) :
    Ends (pushBack (flushLinks q.header levels) str delim links) fun b' =>
      Shows b' (html.pushLink q.headerText str delim a) :=
  pushBack_ends str delim hb (flushLinks_ends h hb)

theorem Stands.length (hb : Stands b s) : 0 < s.2.data.length ∧ s.2.data.length ≤ MAX_LINK_MEMORY :=
  ⟨hb.begun, hb.links.size ▸ b.links.size_le⟩

/-- The step lemma: only the conversion of a word that is too long goes outside. -/
theorem call_leads (h : ¬q.Endless) (hb : Stands b s) {call : Call}
    (hcall : call.Within (2 ^ 31 - 1)) :
    Leads .outside (WordFits call) (Stands · (stepCall q.headerText s call))
      (runCall (flushLinks q.header levels) b call) := by
  cases call with
  | word str delim =>
    have hpush : Ends (pushBack flushWords str delim b.words) _ := pushWord_ends hb.words str delim
    exact (hpush.bind fun words hwords => ends_ok ⟨hwords, hb.links, hb.begun⟩).leads _
  | link str delim =>
    have hpush : Ends (pushBack (flushLinks q.header levels) str delim b.links) _ :=
      pushLink_ends h hb.links str delim
    have hbegun := (pushLink_length (headerText_length h) hb.length str delim).1
    exact (hpush.bind fun links hlinks => ends_ok ⟨hb.words, hlinks, hbegun⟩).leads _
  | anchorWord str delim =>
    have hpush : Ends (pushBack (flushLinks q.header levels) str delim b.links) _ :=
      pushLink_ends h hb.links str delim
    obtain ⟨links, hrun, hlinks⟩ := hpush
    obtain ⟨hbegun, hfits⟩ := pushLink_length (headerText_length h) hb.length str delim
    rw [← hlinks.size] at hfits
    have hle := links.size_le
    have hmax : MAX_LINK_MEMORY = 8192 := rfl
    rw [runCall, hrun, ok_bind]
    by_cases hword : str.length + 1 ≤ links.size
    · have hstart : int32 (u64Sub links.size (str.length + 1)) =
          ((links.size - (str.length + 1) : Nat) : Int) := by
        rw [u64Sub, if_pos hword]
        exact int32_of_lt (by omega)
      refine .fine (hfits.mp hword) ?_
      dsimp only
      rw [hstart]
      refine (caseConvert_ends links (Nat.sub_le _ _) (Or.inl rfl)).bind fun links' hlinks' => ?_
      refine ends_ok ⟨hb.words, ?_, ?_⟩
      · unfold Shows stepCall Call.onLinks BufferArray.caseConvert
        rw [hlinks', hlinks, hlinks.size]
      · unfold stepCall Call.onLinks BufferArray.caseConvert lowercase
        rw [List.length_append, List.length_map, ← List.length_append, List.take_append_drop]
        exact hbegun
    · have hstart : int32 (u64Sub links.size (str.length + 1)) < 0 := by
        unfold Call.Within at hcall
        rw [int32_neg (by omega) (by omega)]
        omega
      refine .stopped (mt hfits.mpr hword) ?_
      dsimp only
      rw [caseConvert_outside links hstart]
      rfl

end Calls

/-! ## Pages -/

section Pages

variable {isCommonEnglishWord : Bytes → Bool} {q : PageInput} {levels : Nat} {b : Buffers}

/-- Both buffers are empty. -/
def IsEmpty (b : Buffers) : Prop := b.words.size = 0 ∧ b.links.size = 0

theorem eq_fresh {max : Nat} {b : Buffer max} (h : b.size = 0) : b = .fresh b.data := by
  obtain ⟨data, size, hle⟩ := b
  cases h
  rfl

theorem shows_empty {max : Nat} {b : Buffer max} (h : b.size = 0) : Shows b ⟨[], []⟩ := by
  unfold Shows Buffer.text
  rw [h, List.take_zero]

/-- The buffers after the headers, without the bounds. -/
def headed (q : PageInput) : BufferArray × BufferArray :=
  (html.pushWord q.parser.url newline (html.pushWord (ascii "<doc>") newline ⟨[], []⟩),
    ⟨q.headerText, []⟩)

theorem writeHeaders_ends (h : ¬q.Endless) (hb : IsEmpty b) :
    Ends (writeHeaders levels q b) (Stands · (headed q)) := by
  unfold writeHeaders
  refine (pushWord_ends (shows_empty hb.1) (ascii "<doc>") newline).bind fun words hwords => ?_
  refine (pushWord_ends hwords q.parser.url newline).bind fun words hwords => ?_
  have hheader := header_ends (flushLinks q.header levels) b.links.data h
  rw [← eq_fresh hb.2] at hheader
  refine hheader.bind fun links hlinks => ends_ok ⟨hwords, hlinks, ?_⟩
  exact (headerText_length h).1

theorem writeHeaders_unended (h : q.Endless) (hb : IsEmpty b) :
    writeHeaders levels q b = .error .unended := by
  unfold writeHeaders
  obtain ⟨words, hrun, hwords⟩ := pushWord_ends (shows_empty hb.1) (ascii "<doc>") newline
  obtain ⟨words', hrun', -⟩ := pushWord_ends hwords q.parser.url newline
  have hheader : pushAll (flushLinks q.header levels) q.header b.links = .error .unended := by
    rw [eq_fresh hb.2]
    exact header_stops _ _ h (flushLinks_unended h levels)
  rw [hrun, ok_bind, hrun', ok_bind, hheader]
  rfl

theorem finish_ends (b : Buffers) : Ends (finish b) IsEmpty := by
  unfold finish
  have hall := caseConvert_ends b.words (Nat.zero_le _) (Or.inr rfl)
  refine hall.bind fun words _ => ?_
  have hshows : Shows words ⟨words.text, []⟩ := rfl
  exact (flushWords_ends hshows).bind fun words' hwords' => ends_ok ⟨hwords'.2, rfl⟩

/-- A word is no longer than the page. -/
theorem calls_within (q : PageInput) :
    ∀ call ∈ q.calls isCommonEnglishWord, call.Within q.page.size := by
  refine List.forall_mem_append.mpr ⟨?_, ?_⟩
  · unfold bodyCalls parseBufCalls
    cases hstart : parseStart q.page (HtmlParser.ofPage q.hops.toNat q.domainHops.toNat
        q.link).writeHeaders with
    | none => exact List.forall_mem_nil _
    | some begin =>
      have hbegin : begin.1 ≤ q.page.size := seamus.checked_parser.parseStart_le hstart
      have hstop : safeEnd q.page begin.1 (q.page.size - begin.1) ≤ q.page.size :=
        seamus.checked_parser.safeEnd_le _ (by omega)
      dsimp only
      unfold parseChunkCalls
      split
      · exact List.forall_mem_nil _
      · exact fun call hcall => (parseLoopCalls_within _ _ call hcall).mono hstop
  · exact List.forall_mem_cons.mpr ⟨trivial, List.forall_mem_singleton.mpr trivial⟩

theorem within_of_fits {call : Call} (h : WordFits call) : call.Within (2 ^ 31 - 1) := by
  cases call with
  | word str delim => trivial
  | link str delim => trivial
  | anchorWord str delim =>
    have hmax : MAX_LINK_MEMORY = 8192 := rfl
    have hdelim : (if delim = NULL_DELIM then 0 else 1) ≤ 1 := by split <;> omega
    unfold WordFits at h
    unfold Call.Within
    omega

/-- The run lemma of a page. -/
theorem calls_lead (levels : Nat) (h : ¬q.Endless) {s : BufferArray × BufferArray} (hb : Stands b s)
    {calls : List Call} (hshort : ∀ call ∈ calls, call.Within (2 ^ 31 - 1)) :
    Leads .outside (∀ call ∈ calls, WordFits call)
      (Stands · (calls.foldl (stepCall q.headerText) s))
      (calls.foldlM (runCall (flushLinks q.header levels)) b) :=
  Leads.foldlM Stands (stepCall q.headerText)
    (fun _ _ hb call hcall => call_leads h hb (hshort call hcall)) hb

/-- A page whose header fits stays inside if and only if the words of its anchor texts fit. -/
theorem parsePage_leads (levels : Nat) (h : ¬q.Endless) (hb : IsEmpty b)
    (hshort : ∀ call ∈ q.calls isCommonEnglishWord, call.Within (2 ^ 31 - 1)) :
    Leads .outside (∀ call ∈ q.calls isCommonEnglishWord, WordFits call) IsEmpty
      (parsePage isCommonEnglishWord levels b q) := by
  unfold parsePage
  have hcalls (b : Buffers) (hb : Stands b (headed q)) :
      Leads .outside (∀ call ∈ q.calls isCommonEnglishWord, WordFits call) IsEmpty
        ((q.calls isCommonEnglishWord).foldlM (runCall (flushLinks q.header levels)) b >>=
          finish) :=
    ((calls_lead levels h hb hshort).bind fun b _ => (finish_ends b).leads _).congr
      (and_iff_left trivial)
  exact (((writeHeaders_ends h hb).leads _).bind hcalls).congr (and_iff_right trivial)

theorem parsePage_unended (h : q.Endless) (hb : IsEmpty b) :
    parsePage isCommonEnglishWord levels b q = .error .unended := by
  unfold parsePage
  rw [writeHeaders_unended h hb]
  rfl

/-! ### The page without the bounds -/

theorem foldl_stepCall (header : Bytes) (calls : List Call) (s : BufferArray × BufferArray) :
    calls.foldl (stepCall header) s =
      (calls.foldl Call.onWords s.1, calls.foldl (Call.onLinks header) s.2) := by
  induction calls generalizing s with
  | nil => rfl
  | cons call calls ih => exact ih _

theorem linkHeader_eq (h : q.domain.length ≤ MAX_LINK_MEMORY) :
    q.parser.linkHeader = q.headerText := by
  unfold PageInput.headerText HtmlParser.linkHeader
  rw [if_neg (Nat.not_lt.mpr h)]
  simp only [PageInput.leadText, PageInput.lead, pushed, List.flatMap_cons, List.flatMap_nil,
    List.append_assoc, List.append_nil]
  rfl

theorem calls_make (isCommonEnglishWord : Bytes → Bool) (q : PageInput) :
    Makes q.parser.writeHeaders (q.calls isCommonEnglishWord)
      (parseBody isCommonEnglishWord q.page q.hops.toNat q.domainHops.toNat
        q.link).writeFooters :=
  (parseBody_makes isCommonEnglishWord q.page _ _ q.link).append
    ((makes_pushWord _ (ascii "</doc>") newline).append (makes_pushLink _ _ newline))

/-- Where the words fit, the buffers hold at the end what they hold without the bounds. -/
theorem parsePage_shows (hlength : q.domain.length ≤ MAX_LINK_MEMORY) (h : ¬q.Endless)
    (hb : IsEmpty b) (hfits : ∀ call ∈ q.calls isCommonEnglishWord, WordFits call) :
    Ends (writeHeaders levels q b >>=
        (q.calls isCommonEnglishWord).foldlM (runCall (flushLinks q.header levels))) fun b' =>
      let plain := (parseBody isCommonEnglishWord q.page q.hops.toNat q.domainHops.toNat
        q.link).writeFooters
      Shows b'.words plain.words ∧ Shows b'.links plain.links := by
  have hmakes := calls_make isCommonEnglishWord q
  refine (writeHeaders_ends h hb).bind fun b hb => ?_
  have hrun := calls_lead levels h hb fun call hcall => within_of_fits (hfits call hcall)
  cases hrun with
  | fine _ ends =>
    refine ends.mono fun b' hb' => ?_
    unfold headed at hb'
    rw [foldl_stepCall, ← linkHeader_eq hlength] at hb'
    dsimp only
    rw [hmakes.words, hmakes.links]
    exact ⟨hb'.words, hb'.links⟩
  | stopped fails _ => exact absurd hfits fails

end Pages

/-! ## Whole runs -/

section Runs

variable (isCommonEnglishWord : Bytes → Bool) (words : Vector UInt8 MAX_WORD_MEMORY)
  (links : Vector UInt8 MAX_LINK_MEMORY)

/-- However many callbacks run in one another, every write is to the memory of its buffer and no
`size_` passes the end of it. -/
def StaysInside (pages : List PageInput) : Prop :=
  ∀ levels fault, parsePages isCommonEnglishWord levels pages ⟨.fresh words, .fresh links⟩ =
    .error fault → fault ≠ .outside ∧ fault ≠ .overfull

/-- The words of the anchor texts fit, up to a page whose header never ends. -/
def AnchorWordsFit : List PageInput → Prop
  | [] => True
  | q :: pages =>
    q.Endless ∨ (∀ call ∈ q.calls isCommonEnglishWord, WordFits call) ∧ AnchorWordsFit pages

variable {isCommonEnglishWord} {pages : List PageInput} {b : Buffers}

/-- The run lemma for words that fit. -/
theorem parsePages_fine (levels : Nat) (hb : IsEmpty b)
    (h : AnchorWordsFit isCommonEnglishWord pages) {fault : Fault}
    (hfault : parsePages isCommonEnglishWord levels pages b = .error fault) :
    fault = .unended := by
  induction pages generalizing b with
  | nil => cases hfault
  | cons q pages ih =>
    rw [parsePages, List.foldlM_cons] at hfault
    by_cases hendless : q.Endless
    · rw [parsePage_unended hendless hb] at hfault
      cases hfault
      rfl
    · obtain ⟨hfits, hrest⟩ := h.resolve_left hendless
      cases parsePage_leads levels hendless hb
        fun call hcall => within_of_fits (hfits call hcall) with
      | fine _ ends =>
        obtain ⟨b', hrun, hb'⟩ := ends
        rw [hrun] at hfault
        exact ih hb' hrest hfault
      | stopped fails _ => exact absurd hfits fails

/-- The run lemma for a word that does not fit. -/
theorem parsePages_outside (levels : Nat) (hb : IsEmpty b)
    (hsizes : ∀ q ∈ pages, q.page.size < 2 ^ 31)
    (h : ¬AnchorWordsFit isCommonEnglishWord pages) :
    parsePages isCommonEnglishWord levels pages b = .error .outside := by
  induction pages generalizing b with
  | nil => exact absurd trivial h
  | cons q pages ih =>
    obtain ⟨hsize, hrest⟩ := List.forall_mem_cons.mp hsizes
    rw [parsePages, List.foldlM_cons]
    unfold AnchorWordsFit at h
    obtain ⟨hendless, hmisfit⟩ := not_or.mp h
    have hshort : ∀ call ∈ q.calls isCommonEnglishWord, call.Within (2 ^ 31 - 1) :=
      fun call hcall => (calls_within q call hcall).mono (by omega)
    cases parsePage_leads levels hendless hb hshort with
    | fine holds ends =>
      obtain ⟨b', hrun, hb'⟩ := ends
      rw [hrun]
      exact ih hb' hrest fun hfit => hmisfit ⟨holds, hfit⟩
    | stopped _ stops =>
      rw [stops]
      rfl

end Runs

/-- The buffers stay inside if the words of the anchor texts fit, and on pages whose length is an
`int` only then. -/
theorem buffers_stay_inside (isCommonEnglishWord : Bytes → Bool)
    (words : Vector UInt8 MAX_WORD_MEMORY) (links : Vector UInt8 MAX_LINK_MEMORY)
    (pages : List PageInput) :
    (AnchorWordsFit isCommonEnglishWord pages →
        StaysInside isCommonEnglishWord words links pages) ∧
      ((∀ q ∈ pages, q.page.size < 2 ^ 31) → StaysInside isCommonEnglishWord words links pages →
        AnchorWordsFit isCommonEnglishWord pages) := by
  have hfresh : IsEmpty ⟨.fresh words, .fresh links⟩ := ⟨rfl, rfl⟩
  constructor
  · intro hfit levels fault hfault
    obtain rfl := parsePages_fine levels hfresh hfit hfault
    exact ⟨nofun, nofun⟩
  · intro hsizes hinside
    by_contra hmisfit
    exact (hinside 0 .outside (parsePages_outside 0 hfresh hsizes hmisfit)).1 rfl

/-! ## A word that does not fit -/

section Letters

variable {page : Page} {c : Cursor}

theorem turn_letter (isCommonEnglishWord : Bytes → Bool) (start stop : Nat)
    (h : page.mem c.p = 65) (hrun : c.parser.nonAlnumRun = 0) :
    turn isCommonEnglishWord page start stop c = .goOn { c with p := c.p + 1 } ∧
      turnCalls isCommonEnglishWord page start stop c = [] := by
  have hbreak : isWordBreakChar 65 = false := by decide
  have halnum : isalnum 65 = true := by decide
  have hparser : { c.parser with nonAlnumRun := 0 } = c.parser := by rw [← hrun]
  unfold turn turnCalls isUtf8Apostrophe isUtf8Space
  dsimp only
  rw [h, hbreak, halnum, hparser]
  exact ⟨rfl, rfl⟩

/-- The letters of a word are skipped one after the other. -/
theorem parseLoopCalls_letters {isCommonEnglishWord : Bytes → Bool} {start stop : Nat}
    (len turns : Nat) (h : ∀ i < len, page.mem (c.p + i) = 65) (hstop : c.p + len ≤ stop)
    (hrun : c.parser.nonAlnumRun = 0) :
    parseLoopCalls isCommonEnglishWord page start stop (turns + len) c =
      parseLoopCalls isCommonEnglishWord page start stop turns { c with p := c.p + len } := by
  induction len generalizing c with
  | zero => rfl
  | succ len ih =>
    obtain ⟨hturn, hcalls⟩ := turn_letter isCommonEnglishWord start stop
      (h 0 (Nat.zero_lt_succ len)) hrun
    have hrest (i : Nat) (hi : i < len) : page.mem (c.p + 1 + i) = 65 := by
      rw [Nat.add_assoc, Nat.add_comm 1]
      exact h (i + 1) (by omega)
    rw [← Nat.add_assoc, parseLoopCalls, if_pos (by omega), hturn, hcalls, List.nil_append]
    dsimp only
    rw [ih (c := { c with p := c.p + 1 }) hrest (by dsimp only; omega) hrun]
    dsimp only
    rw [Nat.add_assoc, Nat.add_comm 1]

end Letters

/-- A link whose anchor text is one word of 9000 letters. -/
def longWordPage : Page where
  mem i :=
    if i < 12 then (ascii "<a href=\"x\">").getD i 0
    else if i < 9012 then 65
    else (ascii "</a>").getD (i - 9012) 0
  size := 9016

def longWordInput : PageInput := ⟨longWordPage, 0, 0, ascii "https://c.net/"⟩

/-- The parser before the body. -/
def longWordStart : Cursor := ⟨longWordInput.parser.writeHeaders, 0, 0, 0⟩

/-- The cursor of the next turn, if there is one. -/
def Flow.next : Flow → Option Cursor
  | .goOn c => some c
  | .done _ => none

/-- The turn of `<a href="x">`. -/
theorem longWord_tag : ∃ c, turn (fun _ => false) longWordPage 0 9016 longWordStart = .goOn c ∧
    c.p = 12 ∧ c.wordStart = 12 ∧ c.parser.inA = true ∧ c.parser.nonAlnumRun = 0 := by
  have hnext : (Flow.next (turn (fun _ => false) longWordPage 0 9016 longWordStart)).map
      (fun c => (c.p, c.wordStart, c.parser.inA, c.parser.nonAlnumRun)) =
        some (12, 12, true, 0) := by decide +kernel
  cases hturn : turn (fun _ => false) longWordPage 0 9016 longWordStart with
  | goOn c =>
    rw [hturn] at hnext
    obtain ⟨hp, hstart, hin, hrun⟩ : c.p = 12 ∧ c.wordStart = 12 ∧ c.parser.inA = true ∧
        c.parser.nonAlnumRun = 0 := by simpa [Flow.next] using hnext
    exact ⟨c, rfl, hp, hstart, hin, hrun⟩
  | done h =>
    rw [hturn] at hnext
    cases hnext

/-- The turn of `</a>`. -/
theorem longWord_call {c : Cursor} (hp : c.p = 9012) (hstart : c.wordStart = 12)
    (hin : c.parser.inA = true) :
    .anchorWord (longWordPage.slice 12 9000) space ∈
      turnCalls (fun _ => false) longWordPage 0 9016 c := by
  have hopen : longWordPage.mem 9012 = 60 := by decide +kernel
  have hcall : .anchorWord (longWordPage.slice 12 9000) space ∈
      endWordCalls longWordPage space newline c := by
    unfold endWordCalls anchorCalls
    rw [hp, hstart, hin]
    exact List.mem_cons_self
  unfold turnCalls tagTurnCalls
  rw [hp, hstart, hopen]
  dsimp only
  rw [if_neg (by decide), if_pos rfl, if_pos ⟨by decide +kernel, by decide⟩]
  exact List.mem_append_left _ hcall

theorem longWord_body : bodyCalls (fun _ => false) longWordPage 0 0 longWordInput.link =
    parseLoopCalls (fun _ => false) longWordPage 0 9016 (16 + 9000 + 1) longWordStart := by
  have hbegin : parseStart longWordPage longWordInput.parser.writeHeaders =
      some (0, longWordInput.parser.writeHeaders) := by rfl
  have hstop : safeEnd longWordPage 0 9016 = 9016 := by decide +kernel
  have hsize : longWordPage.size - 0 = 9016 := by rfl
  change parseBufCalls _ _ longWordInput.parser.writeHeaders = _
  unfold parseBufCalls
  rw [hbegin]
  dsimp only
  rw [hsize, hstop, parseChunkCalls, if_neg (by decide)]
  rfl

/-- The word is pushed as one. -/
theorem longWord_called : .anchorWord (longWordPage.slice 12 9000) space ∈
    longWordInput.calls fun _ => false := by
  obtain ⟨c, hturn, hp, hstart, hin, hrun⟩ := longWord_tag
  have hletter (i : Nat) (hi : i < 9000) : longWordPage.mem (c.p + i) = 65 := by
    unfold longWordPage
    dsimp only
    rw [if_neg (by omega), if_pos (by omega)]
  have hstop : c.p + 9000 ≤ 9016 := by omega
  have hbody : .anchorWord (longWordPage.slice 12 9000) space ∈
      parseLoopCalls (fun _ => false) longWordPage 0 9016 (16 + 9000 + 1) longWordStart := by
    rw [parseLoopCalls, if_pos (by decide), hturn]
    dsimp only
    rw [parseLoopCalls_letters 9000 16 hletter hstop hrun, hp, parseLoopCalls,
      if_pos (by dsimp only; omega)]
    refine List.mem_append_right _ (List.mem_append_left _ ?_)
    exact longWord_call (c := { c with p := 12 + 9000 }) rfl hstart hin
  rw [← longWord_body] at hbody
  exact List.mem_append_left _ hbody

/-- A word of 9000 letters is rejected, and its conversion begins before the buffer. -/
theorem long_anchor_word_leaves_buffer :
    ¬StaysInside (fun _ => false) (Vector.replicate MAX_WORD_MEMORY 0)
      (Vector.replicate MAX_LINK_MEMORY 0) [longWordInput] := by
  have hends : ¬longWordInput.Endless := by
    unfold PageInput.Endless
    decide +kernel
  have hmisfit : ¬WordFits (.anchorWord (longWordPage.slice 12 9000) space) := by
    unfold WordFits
    dsimp only
    rw [slice_length]
    decide
  intro hinside
  refine (hinside 0 .outside (parsePages_outside 0 ⟨rfl, rfl⟩ ?_ ?_)).1 rfl
  · exact List.forall_mem_singleton.mpr (by decide)
  · exact not_or.mpr ⟨hends, fun hfit => hmisfit (hfit.1 _ longWord_called)⟩

end seamus.output_buffers
