-- The answer of a machine to a query: `send_query_response` and `send_recv_query_data` of
-- `lib/rpc_query_handler.h`.
import Seamus.QueryResults
import Seamus.Rpc

open little_endian streams seamus.query_results seamus.rpc

namespace seamus.rpc_query_handler

/-! ## The source functions -/

/-- A page with the bits of its score. -/
abbrev Page := LeanPage UInt64

def sendDouble (bits : UInt64) : Bytes := beBytes 8 bits.toNat

def recvDouble : Reader UInt64 := do
  let networkVal ← exactly 8
  pure (UInt64.ofNat (beValue networkVal))

def sendPage (page : Page) : Bytes :=
  sendString page.title ++ (sendString page.url ++ sendDouble page.score)

def sendQueryResponse (pages : List Page) : Bytes := sendBatch sendPage pages

/-- A turn of the loop. All three fields are read, whichever of them fails. -/
def recvPage : Reader Page := do
  let (title, url, score) ← both recvString (both recvString recvDouble)
  pure ⟨url, title, score⟩

/-- The loop. A page that cannot be decoded is left out. -/
def recvPages : Nat → Fd → List Page
  | 0, _ => []
  | n + 1, fd =>
    match recvPage fd with
    | (some page, fd) => page :: recvPages n fd
    | (none, fd) => recvPages n fd

/-- `send_recv_query_data`, after the query has been sent. -/
def recvQueryData (fd : Fd) : List Page :=
  match recvU32 fd with
  | (some numPages, fd) => recvPages numPages.toNat fd
  | (none, _) => []

/-- The receiver takes the strings of the page. -/
def Short (page : Page) : Prop :=
  page.url.length ≤ maxStringLen ∧ page.title.length ≤ maxStringLen

instance (page : Page) : Decidable (Short page) := inferInstanceAs (Decidable (_ ∧ _))

/-- Wherever the stream is cut, pages that were sent come out, in order and as they were, and
all of them when it is not cut and the receiver takes the strings. -/
def Faithful (pages : List Page) : Prop :=
  (∀ fd : Fd, fd.bytes <+: sendQueryResponse pages → (recvQueryData fd).Sublist pages) ∧
    ((∀ page ∈ pages, Short page) →
      ∀ fd : Fd, fd.bytes = sendQueryResponse pages → recvQueryData fd = pages)

/-! ## One page -/

theorem decodes_double (bits : UInt64) : Decodes recvDouble bits (sendDouble bits) := by
  have hread : Decodes recvDouble (UInt64.ofNat bits.toNat) (sendDouble bits) :=
    decodes_number UInt64.ofNat bits.toNat_lt
  rwa [UInt64.ofNat_toNat] at hread

theorem decodes_page {page : Page} (h : Short page) : Decodes recvPage page (sendPage page) := by
  have hscore : sendDouble page.score ≠ [] := fun hnil => by
    have hlen : (sendDouble page.score).length = 8 := beBytes_length _ _
    rw [hnil] at hlen
    cases hlen
  have hfields := (decodes_string h.2).both
    ((decodes_string h.1).both (decodes_double page.score) hscore)
    (fun hnil => hscore (List.append_eq_nil_iff.mp hnil).2)
  have hread : Decodes recvPage page (sendPage page ++ []) := hfields.bind (decodes_pure page)
  rwa [List.append_nil] at hread

/-! ## All pages -/

section Pages

variable {pages : List Page} {fd : Fd} {n : Nat}

theorem length_recvPages_le : (recvPages n fd).length ≤ n := by
  induction n generalizing fd with
  | zero => exact Nat.le_refl 0
  | succ n ih =>
    unfold recvPages
    split
    · exact Nat.succ_le_succ ih
    · exact Nat.le_succ_of_le ih

theorem recvPages_all (h : ∀ page ∈ pages, Short page) (hfd : fd.bytes = pages.flatMap sendPage) :
    recvPages pages.length fd = pages := by
  induction pages generalizing fd with
  | nil => rfl
  | cons page pages ih =>
    rw [List.flatMap_cons] at hfd
    obtain ⟨hread, hrest⟩ := (decodes_page (h page List.mem_cons_self)).whole fd _ hfd
    rw [List.length_cons, recvPages]
    rcases hpage : recvPage fd with ⟨r, fd'⟩
    rw [hpage] at hread hrest
    obtain rfl : r = some page := hread
    exact congrArg (page :: ·) (ih (fun page hp => h page (List.mem_cons_of_mem _ hp)) hrest)

theorem recvPages_sublist (h : ∀ page ∈ pages, Short page) (hn : n ≤ pages.length)
    (hfd : fd.bytes <+: pages.flatMap sendPage) : (recvPages n fd).Sublist pages := by
  induction pages generalizing n fd with
  | nil =>
    obtain rfl := Nat.le_zero.mp hn
    exact List.Sublist.refl []
  | cons page pages ih =>
    have hpages : ∀ page ∈ pages, Short page := fun page hp => h page (List.mem_cons_of_mem _ hp)
    have hdecodes := decodes_page (h page List.mem_cons_self)
    rw [List.flatMap_cons] at hfd
    cases n with
    | zero => exact List.nil_sublist _
    | succ n =>
      have hn := Nat.le_of_succ_le_succ hn
      unfold recvPages
      rcases hpage : recvPage fd with ⟨r, fd'⟩
      rcases prefix_append_cases hfd with ⟨hshort, hne⟩ | ⟨rest, hrest, hpart⟩
      · -- the stream ends in this page, and nothing comes of the pages after it
        obtain ⟨hread, hleft⟩ := hdecodes.cut fd hshort hne
        rw [hpage] at hread hleft
        obtain rfl : r = none := hread
        exact (ih hpages hn (by rw [hleft]; exact List.nil_prefix)).cons page
      · obtain ⟨hread, hleft⟩ := hdecodes.whole fd rest hrest
        rw [hpage] at hread hleft
        obtain rfl : r = some page := hread
        exact (ih hpages hn (by rw [hleft]; exact hpart)).cons_cons page

end Pages

/-! ## The answer -/

/-- After the number of pages, the receiver reads that many. -/
theorem recvQueryData_counted {count : UInt32} {fd : Fd} {rest : Bytes}
    (hfd : fd.bytes = sendU32 count ++ rest) :
    ∃ fd' : Fd, recvQueryData fd = recvPages count.toNat fd' ∧ fd'.bytes = rest := by
  obtain ⟨hread, hrest⟩ := (decodes_u32 count).whole fd rest hfd
  refine ⟨_, ?_, hrest⟩
  unfold recvQueryData
  rcases hu32 : recvU32 fd with ⟨r, fd'⟩
  rw [hu32] at hread
  obtain rfl : r = some count := hread
  rfl

/-- When the stream ends in the number of pages, there are none. -/
theorem recvQueryData_uncounted {count : UInt32} {fd : Fd} (hpart : fd.bytes <+: sendU32 count)
    (hne : fd.bytes ≠ sendU32 count) : recvQueryData fd = [] := by
  have hnone := (decodes_u32 count).cut fd hpart hne
  unfold recvQueryData
  rcases hu32 : recvU32 fd with ⟨r, fd'⟩
  rw [hu32] at hnone
  obtain rfl : r = none := hnone.1
  rfl

/-- The receiver does not skip a title that it does not take: it goes on in its first bytes. -/
theorem recvPage_of_long_title {fd : Fd} {n : Nat} {rest : Bytes} (hn : n < 2 ^ 32)
    (hlong : maxStringLen < n)
    (hfd : fd.bytes = sendU32 (UInt32.ofNat n) ++ (sendString [] ++ sendDouble 0 ++ rest)) :
    (recvPage fd).1 = none ∧ (recvPage fd).2.bytes = rest := by
  obtain ⟨hlen, hleft⟩ := (decodes_u32 _).whole fd _ hfd
  have htitle : recvString fd = (none, (recvU32 fd).2) := by
    unfold recvString
    rw [bind_of_some hlen, toNat_ofNat_of_lt hn, if_pos hlong]
    rfl
  have hnil : ([] : Bytes).length ≤ maxStringLen := Nat.zero_le _
  have hfields := (decodes_string hnil).both (decodes_double 0) (by decide)
  obtain ⟨-, hrest⟩ := hfields.whole (recvU32 fd).2 rest hleft
  have hboth : both recvString (both recvString recvDouble) fd =
      (none, (both recvString recvDouble (recvU32 fd).2).2) := by
    conv_lhs => unfold both
    rw [htitle]
    rfl
  have hnone : (both recvString (both recvString recvDouble) fd).1 = none := by rw [hboth]
  unfold recvPage
  rw [bind_of_none hnone, hboth]
  exact ⟨rfl, hrest⟩

/-- A title that is too long can hold a page that comes out in the place of the next one. -/
theorem recvQueryData_of_long_title {first second fake : Page} {padding : Bytes}
    (hfake : Short fake)
    (htitle : first.title = sendString [] ++ sendDouble 0 ++ (sendPage fake ++ padding))
    (hlong : maxStringLen < first.title.length) (hlen : first.title.length < 2 ^ 32) {fd : Fd}
    (hfd : fd.bytes = sendQueryResponse [first, second]) : recvQueryData fd = [fake] := by
  obtain ⟨fd1, heq, hpages⟩ := @recvQueryData_counted 2 fd _ hfd
  have htext : [first, second].flatMap sendPage = sendU32 (UInt32.ofNat first.title.length) ++
      (sendString [] ++ sendDouble 0 ++ (sendPage fake ++
        (padding ++ (sendString first.url ++ sendDouble first.score ++ sendPage second)))) := by
    have hfirst : sendPage first = sendU32 (UInt32.ofNat first.title.length) ++
        (first.title ++ (sendString first.url ++ sendDouble first.score)) :=
      List.append_assoc _ _ _
    rw [List.flatMap_cons, List.flatMap_singleton, hfirst]
    generalize sendU32 (UInt32.ofNat first.title.length) = header
    rw [htitle]
    simp only [List.append_assoc]
  rw [htext] at hpages
  obtain ⟨hnone, hnext⟩ := recvPage_of_long_title hlen hlong hpages
  obtain ⟨hsome, -⟩ := (decodes_page hfake).whole _ _ hnext
  rw [heq]
  change recvPages 2 fd1 = [fake]
  rw [recvPages]
  rcases hfirst : recvPage fd1 with ⟨r, fd2⟩
  rw [hfirst] at hnone hsome
  obtain rfl : r = none := hnone
  change recvPages 1 fd2 = [fake]
  rw [recvPages]
  rcases hsecond : recvPage fd2 with ⟨r, fd3⟩
  rw [hsecond] at hsome
  obtain rfl : r = some fake := hsome
  rfl

/-- A title of zeros that is one byte too long. -/
def longTitle : Bytes :=
  sendString [] ++ sendDouble 0 ++ (sendPage ⟨[], [], 0⟩ ++ List.replicate 16777189 0)

theorem length_longTitle : longTitle.length = maxStringLen + 1 := by
  unfold longTitle
  rw [← List.append_assoc, List.length_append, List.length_replicate]
  rfl

end seamus.rpc_query_handler
